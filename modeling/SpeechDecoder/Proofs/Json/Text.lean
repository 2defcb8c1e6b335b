import SpeechDecoder.Json.Reader
import SpeechDecoder.Proofs.Decimal.Numeral

/-!
# JSON texts are read back

The text of a value is read back as the value (`parse?_pretty`), if its strings have texts and its
numbers are proper numerals (`Json.Proper`).  The fuel of a reader is compared with the length of
the text that it takes: every step inwards takes a character.

* `scanString_quote` reads a string back: an escape stands for the character it was made of.
* `scanValue_prettyAt` reads a value back at any level, and with it the items of an array and the
  members of an object, whose text without the opening bracket is `inner`.
-/

namespace SpeechDecoder.Json

open Decimal

/-- **A value that has a text of its own.** -/
inductive Proper : Json → Prop
  | null : Proper null
  | bool (b : Bool) : Proper (bool b)
  | number {n : Numeral} (h : n.Proper) : Proper (number n)
  | text (s : String) : Proper (text s)
  | array {items : List Json} (h : ∀ v ∈ items, Proper v) : Proper (array items)
  | object {members : List (Option String × Json)} (names : ∀ m ∈ members, m.1.isSome = true)
      (values : ∀ m ∈ members, Proper m.2) : Proper (object members)

/-! ## Strings -/

theorem hexValue?_hexDigit : ∀ n < 16, hexValue? (hexDigit n) = some n := by decide

theorem scanUnits_escaped {e d : Char} (hu : e ≠ 'u') (he : escaped? e = some d)
    (rest : List Char) : scanUnits ('\\' :: e :: rest) =
      (scanUnits rest).map fun (units, rest) => (d.toNat :: units, rest) := by
  rw [scanUnits.eq_4 _ _ (by rintro _ _ _ _ _ rfl _; exact hu rfl), he]
  cases scanUnits rest <;> rfl

/-- **A character is read back from its escape.** -/
theorem scanUnits_escape (c : Char) (rest : List Char) : scanUnits (escape c ++ rest) =
    (scanUnits rest).map fun (units, rest) => (c.toNat :: units, rest) := by
  unfold escape
  split
  all_goals try exact scanUnits_escaped (by decide) rfl rest
  next hquote hslash _ _ _ _ _ =>
    split_ifs with hc
    · have hhigh := hexValue?_hexDigit (c.toNat / 16) (by omega)
      have hlow := hexValue?_hexDigit (c.toNat % 16) (by omega)
      have hzero : hexValue? '0' = some 0 := rfl
      have hunit : 0 * 4096 + 0 * 256 + c.toNat / 16 * 16 + c.toNat % 16 = c.toNat := by omega
      simp only [List.cons_append, List.nil_append, scanUnits, hexUnit?, hhigh, hlow, hzero,
        Option.bind_eq_bind, Option.bind_some, Option.pure_def, hunit]
      cases scanUnits rest <;> rfl
    · rw [List.cons_append, List.nil_append, scanUnits.eq_5 _ _ hquote
        (fun _ _ _ _ _ h _ => hslash h) (fun _ _ h _ => hslash h), if_neg (fun h => h.elim hslash hc)]
      cases scanUnits rest <;> rfl

theorem scanUnits_flatMap (cs rest : List Char) :
    scanUnits (cs.flatMap escape ++ '\"' :: rest) = some (cs.map Char.toNat, rest) := by
  induction cs with
  | nil => rfl
  | cons c cs ih =>
    rw [List.flatMap_cons, List.append_assoc, scanUnits_escape, ih]
    rfl

/-- A character is no half of a surrogate pair. -/
theorem not_surrogate (c : Char) : ¬ (0xD800 ≤ c.toNat ∧ c.toNat < 0xE000) := by
  have h := c.valid
  change c.toNat < 0xD800 ∨ 0xDFFF < c.toNat ∧ c.toNat < 0x110000 at h
  omega

/-- **The units of characters stand for them.** -/
theorem joinUnits_toNat : ∀ cs : List Char, joinUnits (cs.map Char.toNat) = some cs
  | [] => rfl
  | [c] => by
    rw [List.map_singleton, joinUnits, if_neg (not_surrogate c), Char.ofNat_toNat]
  | c :: d :: cs => by
    have ih := joinUnits_toNat (d :: cs)
    have hc := not_surrogate c
    rw [List.map_cons] at ih
    rw [List.map_cons, List.map_cons, joinUnits, if_neg (by omega), if_neg (by omega), ih,
      Char.ofNat_toNat]
    rfl

/-- **A string is read back from its quoted text.** -/
theorem scanString_quote (s : String) (rest : List Char) :
    scanString (s.toList.flatMap escape ++ '\"' :: rest) = some (some s, rest) := by
  have hjoin : (joinUnits (s.toList.map Char.toNat)).map String.ofList = some s := by
    rw [joinUnits_toNat, Option.map_some, String.ofList_toList]
  unfold scanString
  rw [scanUnits_flatMap]
  exact congrArg (fun t => some (t, rest)) hjoin

theorem quote_append (s : String) (rest : List Char) :
    quote (some s) ++ rest = '\"' :: (s.toList.flatMap escape ++ '\"' :: rest) := by
  simp [quote]

/-! ## Blanks -/

theorem skipBlanks_cons {c : Char} (hc : isBlank c = false) (cs : List Char) :
    skipBlanks (c :: cs) = c :: cs := by
  simp [skipBlanks, hc]

theorem blank_of_mem_newLine {level : Nat} {c : Char} (hc : c ∈ newLine level) :
    isBlank c = true := by
  rcases List.mem_cons.1 hc with rfl | hc
  · rfl
  · rw [List.eq_of_mem_replicate hc]
    rfl

section Blanks

variable {bs : List Char} (hb : ∀ c ∈ bs, isBlank c = true) (fuel : Nat) (cs : List Char)

include hb

theorem skipBlanks_append : skipBlanks (bs ++ cs) = skipBlanks cs :=
  List.dropWhile_append_of_pos hb

theorem scanValue_append : scanValue fuel (bs ++ cs) = scanValue fuel cs := by
  cases fuel with
  | zero => rfl
  | succ fuel => rw [scanValue, scanValue, skipBlanks_append hb]

theorem scanItems_append : scanItems fuel (bs ++ cs) = scanItems fuel cs := by
  cases fuel with
  | zero => rfl
  | succ fuel => rw [scanItems, scanItems, scanValue_append hb]

theorem scanMembers_append : scanMembers fuel (bs ++ cs) = scanMembers fuel cs := by
  cases fuel with
  | zero => rfl
  | succ fuel => rw [scanMembers, scanMembers, skipBlanks_append hb]

end Blanks

theorem skipBlanks_newLine (level : Nat) {c : Char} (hc : isBlank c = false) (cs : List Char) :
    skipBlanks (newLine level ++ c :: cs) = c :: cs := by
  rw [skipBlanks_append fun _ => blank_of_mem_newLine, skipBlanks_cons hc]

/-! ## Blocks -/

/-- **What follows the opening bracket of a block** and its new line. -/
def inner (level : Nat) (right : Char) : List (List Char) → List Char
  | [] => []
  | [e] => e ++ (newLine level ++ [right])
  | e :: f :: es => e ++ (',' :: newLine (level + 1) ++ inner level right (f :: es))

theorem block_cons (level : Nat) (left right : Char) (e : List Char) (es : List (List Char)) :
    block level left right (e :: es) =
      left :: (newLine (level + 1) ++ inner level right (e :: es)) := by
  have hinner : ∀ e, inner level right (e :: es) =
      e ++ (es.flatMap (fun e => ',' :: newLine (level + 1) ++ e) ++ (newLine level ++ [right])) := by
    induction es with
    | nil => exact fun e => rfl
    | cons f es ih =>
      intro e
      rw [inner, ih f]
      simp only [List.flatMap_cons, List.append_assoc, List.cons_append]
  rw [hinner]
  simp only [block, List.cons_append, List.append_assoc]

theorem inner_eq_append (level : Nat) (right : Char) (e : List Char) (es : List (List Char)) :
    ∃ c cs, inner level right (e :: es) = e ++ c :: cs := by
  cases es with
  | nil => exact ⟨_, _, rfl⟩
  | cons f es => exact ⟨_, _, rfl⟩

/-- Neither a new line nor a comma goes on with a number. -/
theorem endsNumber_newLine (level : Nat) (rest : List Char) : EndsNumber (newLine level ++ rest) := by
  rintro c ⟨⟩
  decide

theorem endsNumber_comma (rest : List Char) : EndsNumber (',' :: rest) := by
  rintro c ⟨⟩
  decide

/-- A number begins with a character that begins no other value. -/
theorem head_number {n : Numeral} (hn : n.Proper) :
    ∃ c cs, n.text = c :: cs ∧ isBlank c = false ∧ c ≠ ']' ∧ c ≠ 'n' ∧ c ≠ 't' ∧ c ≠ 'f' ∧
      c ≠ '\"' ∧ c ≠ '[' ∧ c ≠ '\x7b' := by
  obtain ⟨c, cs, hc, rfl | hdigit⟩ := Numeral.head_text hn
  · exact ⟨_, cs, hc, by decide⟩
  · refine ⟨c, cs, hc, ?_⟩
    simp only [isBlank, Bool.or_eq_false_iff, beq_eq_false_iff_ne]
    refine ⟨⟨⟨⟨?_, ?_⟩, ?_⟩, ?_⟩, ?_, ?_, ?_, ?_, ?_, ?_, ?_⟩ <;>
      (rintro rfl; revert hdigit; decide)

/-- A value begins with a character that is neither blank nor a closing bracket. -/
theorem head_prettyAt {v : Json} (hv : v.Proper) (level : Nat) :
    ∃ c cs, prettyAt level v = c :: cs ∧ isBlank c = false ∧ c ≠ ']' := by
  have hblock : ∀ left right es, ∃ cs, block level left right es = left :: cs := by
    intro left right es
    cases es with
    | nil => exact ⟨_, rfl⟩
    | cons e es => exact ⟨_, block_cons ..⟩
  rcases hv with _ | ⟨_ | _⟩ | hn | s | h | ⟨hn, hv⟩
  · exact ⟨_, _, rfl, rfl, by decide⟩
  · exact ⟨_, _, rfl, rfl, by decide⟩
  · exact ⟨_, _, rfl, rfl, by decide⟩
  · obtain ⟨c, cs, hc, hblank, hne, -⟩ := head_number hn
    exact ⟨c, cs, hc, hblank, hne⟩
  · exact ⟨_, _, rfl, rfl, by decide⟩
  · obtain ⟨cs, hcs⟩ := hblock '[' ']' _
    exact ⟨_, cs, hcs, rfl, by decide⟩
  · obtain ⟨cs, hcs⟩ := hblock '\x7b' '\x7d' _
    exact ⟨_, cs, hcs, rfl, by decide⟩

/-! ## Values -/

section Steps

variable {level fuel : Nat} {v : Json} {name : String} {cs ds rest : List Char}

theorem scanItems_last (hv : scanValue fuel cs = some (v, newLine level ++ ']' :: rest)) :
    scanItems (fuel + 1) cs = some ([v], rest) := by
  simp only [scanItems, hv, Option.bind_eq_bind, Option.bind_some,
    skipBlanks_newLine level (c := ']') rfl]
  rfl

theorem scanItems_more {items : List Json}
    (hv : scanValue fuel cs = some (v, ',' :: (newLine level ++ ds)))
    (hitems : scanItems fuel ds = some (items, rest)) :
    scanItems (fuel + 1) cs = some (v :: items, rest) := by
  simp only [scanItems, hv, Option.bind_eq_bind, Option.bind_some,
    skipBlanks_cons (c := ',') rfl, scanItems_append fun _ => blank_of_mem_newLine, hitems]
  rfl

/-- The name of a member and the colon are passed. -/
theorem scanMembers_name (name : String) (fuel : Nat) (cs : List Char) :
    scanMembers (fuel + 1) (quote (some name) ++ ':' :: ' ' :: cs) =
      (scanValue fuel cs).bind fun (v, cs) =>
        match skipBlanks cs with
        | ',' :: cs => (scanMembers fuel cs).bind fun (members, cs) =>
            some ((some name, v) :: members, cs)
        | '\x7d' :: cs => some ([(some name, v)], cs)
        | _ => none := by
  have hspace : ∀ c ∈ [' '], isBlank c = true := by simp [isBlank]
  have hblank : scanValue fuel (' ' :: cs) = scanValue fuel cs := scanValue_append hspace fuel cs
  simp only [scanMembers, quote_append, skipBlanks_cons (c := '\"') rfl, scanString_quote,
    Option.bind_eq_bind, Option.bind_some, skipBlanks_cons (c := ':') rfl, hblank]
  rfl

theorem scanMembers_last (hv : scanValue fuel cs = some (v, newLine level ++ '\x7d' :: rest)) :
    scanMembers (fuel + 1) (quote (some name) ++ ':' :: ' ' :: cs) =
      some ([(some name, v)], rest) := by
  simp only [scanMembers_name, hv, Option.bind_some, skipBlanks_newLine level (c := '\x7d') rfl]

theorem scanMembers_more {members : List (Option String × Json)}
    (hv : scanValue fuel cs = some (v, ',' :: (newLine level ++ ds)))
    (hmembers : scanMembers fuel ds = some (members, rest)) :
    scanMembers (fuel + 1) (quote (some name) ++ ':' :: ' ' :: cs) =
      some ((some name, v) :: members, rest) := by
  simp only [scanMembers_name, hv, Option.bind_some, skipBlanks_cons (c := ',') rfl,
    scanMembers_append fun _ => blank_of_mem_newLine, hmembers]

theorem scanValue_string : scanValue (fuel + 1) (quote (some name) ++ rest) =
    some (text name, rest) := by
  rw [scanValue, quote_append, skipBlanks_cons rfl]
  simp only [scanString_quote]
  rfl

theorem scanValue_number {n : Numeral} (hn : n.Proper) (hr : EndsNumber rest) :
    scanValue (fuel + 1) (n.text ++ rest) = some (number n, rest) := by
  have hscan := Numeral.scan_text hn hr
  obtain ⟨c, cs, hc, hblank, -, h1, h2, h3, h4, h5, h6⟩ := head_number hn
  rw [hc] at hscan ⊢
  rw [scanValue, List.cons_append, skipBlanks_cons hblank]
  split
  · next heq => exact absurd (List.cons.inj heq).1 h1
  · next heq => exact absurd (List.cons.inj heq).1 h2
  · next heq => exact absurd (List.cons.inj heq).1 h3
  · next heq => exact absurd (List.cons.inj heq).1 h4
  · next heq => exact absurd (List.cons.inj heq).1 h5
  · next heq => exact absurd (List.cons.inj heq).1 h6
  · rw [← List.cons_append, hscan]
    rfl

theorem scanValue_array {c : Char} {items : List Json} (hb : isBlank c = false) (hc : c ≠ ']')
    (h : scanItems fuel (c :: cs) = some (items, rest)) :
    scanValue (fuel + 1) ('[' :: (newLine level ++ c :: cs)) = some (array items, rest) := by
  rw [scanValue, skipBlanks_cons rfl]
  simp only [skipBlanks_newLine level hb]
  split
  · next heq =>
    cases heq
    exact absurd rfl hc
  · rw [h]
    rfl

theorem scanValue_object {members : List (Option String × Json)}
    (h : scanMembers fuel ('\"' :: cs) = some (members, rest)) :
    scanValue (fuel + 1) ('\x7b' :: (newLine level ++ '\"' :: cs)) = some (object members, rest) := by
  rw [scanValue, skipBlanks_cons rfl]
  simp only [skipBlanks_newLine level (c := '\"') rfl]
  change (scanMembers fuel ('\"' :: cs)).map _ = _
  rw [h]
  rfl

end Steps

mutual

/-- **A value is read back from its text.** -/
theorem scanValue_prettyAt : ∀ (v : Json), v.Proper → ∀ (level fuel : Nat) (rest : List Char),
    (prettyAt level v).length ≤ fuel → EndsNumber rest →
      scanValue fuel (prettyAt level v ++ rest) = some (v, rest)
  | v, hv, level, 0, rest, hlen, _ => by
    obtain ⟨c, cs, hc, -⟩ := head_prettyAt hv level
    rw [hc] at hlen
    cases hlen
  | .null, _, level, fuel + 1, rest, _, _ => rfl
  | .bool true, _, level, fuel + 1, rest, _, _ => rfl
  | .bool false, _, level, fuel + 1, rest, _, _ => rfl
  | .number n, hv, level, fuel + 1, rest, _, hr => by
    cases hv with
    | number hn => exact scanValue_number hn hr
  | .string s, hv, level, fuel + 1, rest, _, _ => by
    cases hv with
    | text s => exact scanValue_string
  | .array [], _, level, fuel + 1, rest, _, _ => rfl
  | .array (v :: items), hv, level, fuel + 1, rest, hlen, _ => by
    have hitems : ∀ w ∈ v :: items, w.Proper := by
      cases hv with
      | array h => exact h
    obtain ⟨c, cs, hc, hblank, hne⟩ := head_prettyAt (hitems v (List.mem_cons_self ..)) (level + 1)
    obtain ⟨d, ds, hd⟩ := inner_eq_append level ']' (prettyAt (level + 1) v)
      (prettyItems (level + 1) items)
    have htext := block_cons level '[' ']' (prettyAt (level + 1) v) (prettyItems (level + 1) items)
    change (block level '[' ']' (_ :: _)).length ≤ _ at hlen
    change scanValue _ (block level '[' ']' (_ :: _) ++ rest) = _
    rw [htext] at hlen ⊢
    have hscan := scanItems_inner (v :: items) (List.cons_ne_nil _ _) hitems level fuel rest (by
      simp only [List.length_cons, List.length_append] at hlen
      rw [prettyItems]
      omega)
    rw [prettyItems] at hscan
    rw [hd, hc] at hscan ⊢
    rw [List.cons_append, List.append_assoc]
    exact scanValue_array hblank hne hscan
  | .object [], _, level, fuel + 1, rest, _, _ => rfl
  | .object ((name, v) :: members), hv, level, fuel + 1, rest, hlen, _ => by
    have hmembers : ∀ m ∈ (name, v) :: members, m.1.isSome = true ∧ m.2.Proper := by
      cases hv with
      | object names values => exact fun m hm => ⟨names m hm, values m hm⟩
    obtain ⟨d, ds, hd⟩ := inner_eq_append level '\x7d'
      (quote name ++ ':' :: ' ' :: prettyAt (level + 1) v) (prettyMembers (level + 1) members)
    have htext := block_cons level '\x7b' '\x7d'
      (quote name ++ ':' :: ' ' :: prettyAt (level + 1) v) (prettyMembers (level + 1) members)
    change (block level '\x7b' '\x7d' (_ :: _)).length ≤ _ at hlen
    change scanValue _ (block level '\x7b' '\x7d' (_ :: _) ++ rest) = _
    rw [htext] at hlen ⊢
    have hscan := scanMembers_inner ((name, v) :: members) (List.cons_ne_nil _ _) hmembers level fuel
      rest (by
        simp only [List.length_cons, List.length_append] at hlen
        rw [prettyMembers]
        omega)
    rw [prettyMembers] at hscan
    rw [hd] at hscan ⊢
    rw [List.cons_append, List.append_assoc]
    exact scanValue_object hscan

/-- The items of an array are read back. -/
theorem scanItems_inner : ∀ (items : List Json), items ≠ [] → (∀ v ∈ items, v.Proper) →
    ∀ (level fuel : Nat) (rest : List Char),
      (inner level ']' (prettyItems (level + 1) items)).length ≤ fuel →
        scanItems fuel (inner level ']' (prettyItems (level + 1) items) ++ rest) =
          some (items, rest)
  | [], hne, _, _, _, _, _ => absurd rfl hne
  | [v], _, hv, level, fuel, rest, hlen => by
    simp only [prettyItems, inner, List.length_append, List.length_singleton] at hlen
    obtain ⟨fuel, rfl⟩ := Nat.exists_eq_succ_of_ne_zero (show fuel ≠ 0 by omega)
    have hlast := scanValue_prettyAt v (hv v (List.mem_cons_self ..)) (level + 1) fuel
      (newLine level ++ ']' :: rest) (by omega) (endsNumber_newLine _ _)
    simp only [prettyItems, inner, List.append_assoc, List.singleton_append]
    exact scanItems_last hlast
  | v :: w :: items, _, hv, level, fuel, rest, hlen => by
    simp only [prettyItems, inner, List.length_append, List.length_cons] at hlen
    obtain ⟨fuel, rfl⟩ := Nat.exists_eq_succ_of_ne_zero (show fuel ≠ 0 by omega)
    have hmore := scanItems_inner (w :: items) (List.cons_ne_nil _ _)
      (fun u hu => hv u (List.mem_cons_of_mem _ hu)) level fuel rest (by
        rw [prettyItems]
        omega)
    rw [prettyItems] at hmore
    have hfirst := scanValue_prettyAt v (hv v (List.mem_cons_self ..)) (level + 1) fuel
      (',' :: (newLine (level + 1) ++ (inner level ']' (prettyAt (level + 1) w ::
        prettyItems (level + 1) items) ++ rest))) (by omega) (endsNumber_comma _)
    simp only [prettyItems, inner, List.append_assoc, List.cons_append]
    exact scanItems_more hfirst hmore

/-- The members of an object are read back. -/
theorem scanMembers_inner : ∀ (members : List (Option String × Json)), members ≠ [] →
    (∀ m ∈ members, m.1.isSome = true ∧ m.2.Proper) →
      ∀ (level fuel : Nat) (rest : List Char),
        (inner level '\x7d' (prettyMembers (level + 1) members)).length ≤ fuel →
          scanMembers fuel (inner level '\x7d' (prettyMembers (level + 1) members) ++ rest) =
            some (members, rest)
  | [], hne, _, _, _, _, _ => absurd rfl hne
  | [(name, v)], _, hm, level, fuel, rest, hlen => by
    simp only [prettyMembers, inner, List.length_append, List.length_cons] at hlen
    obtain ⟨fuel, rfl⟩ := Nat.exists_eq_succ_of_ne_zero (show fuel ≠ 0 by omega)
    obtain ⟨hname, hv⟩ := hm (name, v) (List.mem_cons_self ..)
    obtain ⟨name, rfl⟩ := Option.isSome_iff_exists.1 hname
    have hlast := scanValue_prettyAt v hv (level + 1) fuel (newLine level ++ '\x7d' :: rest)
      (by omega) (endsNumber_newLine _ _)
    simp only [prettyMembers, inner, List.append_assoc, List.cons_append, List.nil_append]
    exact scanMembers_last hlast
  | (name, v) :: (name', w) :: members, _, hm, level, fuel, rest, hlen => by
    simp only [prettyMembers, inner, List.length_append, List.length_cons] at hlen
    obtain ⟨fuel, rfl⟩ := Nat.exists_eq_succ_of_ne_zero (show fuel ≠ 0 by omega)
    obtain ⟨hname, hv⟩ := hm (name, v) (List.mem_cons_self ..)
    obtain ⟨name, rfl⟩ := Option.isSome_iff_exists.1 hname
    have hmore := scanMembers_inner ((name', w) :: members) (List.cons_ne_nil _ _)
      (fun u hu => hm u (List.mem_cons_of_mem _ hu)) level fuel rest (by
        rw [prettyMembers]
        omega)
    rw [prettyMembers] at hmore
    have hfirst := scanValue_prettyAt v hv (level + 1) fuel
      (',' :: (newLine (level + 1) ++ (inner level '\x7d'
        ((quote name' ++ ':' :: ' ' :: prettyAt (level + 1) w) ::
          prettyMembers (level + 1) members) ++ rest))) (by omega) (endsNumber_comma _)
    simp only [prettyMembers, inner, List.append_assoc, List.cons_append]
    exact scanMembers_more hfirst hmore

end

/-- **A text is read back as the value it was written for.** -/
theorem parse?_pretty {v : Json} (hv : v.Proper) : parse? v.pretty = some v := by
  have hscan := scanValue_prettyAt v hv 0 (2 * (prettyAt 0 v).length + 2) [] (by omega)
    (by rintro c ⟨⟩)
  rw [List.append_nil] at hscan
  unfold parse? pretty
  simp only [String.toList_ofList, hscan, Option.bind_eq_bind, Option.bind_some]
  rfl

end SpeechDecoder.Json
