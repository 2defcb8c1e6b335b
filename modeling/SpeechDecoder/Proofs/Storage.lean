import SpeechDecoder.Storage
import SpeechDecoder.Proofs.Graph.Json

/-!
# Graphs are loaded as they were saved

A file that was written is read as the text it was written with, whatever the folder held before
(`readText_write`).  So a graph that was saved under a path with the extension of JSON is loaded from
that path as the same graph, if all its scores are finite.  Otherwise its file is refused as
malformed (`loadGraph_saveGraph`).
-/

namespace SpeechDecoder.Folder

variable {d : Folder} {path : String} {place : Place}

/-- Files that are added change nothing about a path that leads somewhere. -/
theorem walk_of_ok {d' : Folder} {t : Target} (l : Level) (ws : List (List Char))
    (h : d.walk l ws = .ok t) : d'.walk l ws = .ok t := by
  induction ws generalizing l with
  | nil => exact h
  | cons w rest ih =>
    unfold walk at h ⊢
    split_ifs at h ⊢
    · exact ih _ h
    · exact ih _ h
    · exact h
    · exact h

theorem resolve_of_ok {d' : Folder} {t : Target} (h : d.resolve path = .ok t) :
    d'.resolve path = .ok t := by
  unfold resolve at h ⊢
  split_ifs at h ⊢
  all_goals exact walk_of_ok _ _ h

theorem fromUTF8?_toUTF8 (s : String) : String.fromUTF8? s.toUTF8 = some s :=
  dif_pos s.isValidUTF8

/-- **Writing succeeds** where a path leads to a file whose name is not too long. -/
theorem write_eq_ok (h : d.resolve path = .ok (.file place false)) (hn : isTooLong place = false)
    (bytes : ByteArray) : d.write path bytes = .ok ⟨(place, bytes) :: d.files⟩ := by
  unfold write
  rw [h]
  change (if isTooLong place = true then _ else _) = _
  rw [if_neg (by simp [hn])]
  rfl

/-- **A file is read as it was written.** -/
theorem readText_write (h : d.resolve path = .ok (.file place false)) (s : String) :
    readText ⟨(place, s.toUTF8) :: d.files⟩ path = .ok s := by
  unfold readText
  rw [resolve_of_ok h]
  simp only [bind, Except.bind, List.lookup_cons_self, Bool.false_eq_true, if_false,
    fromUTF8?_toUTF8]
  rfl

/-- A file with the extension of JSON is read as JSON. -/
theorem loadGraph_eq (hp : extension? path = some "json") {text : String}
    (h : d.readText path = .ok text) :
    d.loadGraph path = (Graph.ofText .json text).mapError .graph := by
  have hformat : format? (some "json") = some .json := by simp [format?]
  unfold loadGraph
  simp only [h, hp, hformat, Except.mapError, bind, Except.bind]

/-- **A saved graph is loaded as it was,** bit for bit, exactly if all its scores are finite;
otherwise the file that was written is refused. -/
theorem loadGraph_saveGraph {g : Graph} (hg : g.Fits) (hp : extension? path = some "json")
    (h : d.resolve path = .ok (.file place false)) (hn : isTooLong place = false) :
    ∃ d', d.saveGraph path g = .ok d' ∧ (g.IsFinite → d'.loadGraph path = .ok g) ∧
      (¬ g.IsFinite → d'.loadGraph path = .error (.graph (.malformed .json))) := by
  refine ⟨⟨(place, g.toText.toUTF8) :: d.files⟩, ?_, fun hf => ?_, fun hf => ?_⟩
  · unfold saveGraph
    rw [write_eq_ok h hn, Except.mapError]
  · rw [loadGraph_eq hp (readText_write h _), Graph.ofText_toText hg hf, Except.mapError]
  · rw [loadGraph_eq hp (readText_write h _), Graph.ofText_toText_error hf, Except.mapError]

/-- A phone that is left at a small cost, or not at all. -/
def hiss (ends : Bool) : Graph where
  initial := 0
  states := #[⟨.emitting 0, 2, [.new 0 .certain,
    .new 1 (if ends then Float32.ofBits 0xBDCCCCCD else .impossible)]⟩, .ofKind .final]
  initial_lt := by cases ends <;> decide
  sound := by cases ends <;> (unfold State.Sound; decide)

theorem fits_hiss (ends : Bool) : (hiss ends).Fits where
  size := by cases ends <;> decide
  kind := by simp [hiss, State.ofKind, Graph.Description.KindFits, Graph.phoneBound]
  order := by cases ends <;> decide

/-- The cost of a tenth is kept, and what cannot be left at all is not loaded. -/
theorem loadGraph_saveGraph_hiss : extension? "hiss.json" = some "json" ∧
    (∃ d', empty.saveGraph "hiss.json" (hiss true) = .ok d' ∧
      d'.loadGraph "hiss.json" = .ok (hiss true)) ∧
    ∃ d', empty.saveGraph "hiss.json" (hiss false) = .ok d' ∧
      d'.loadGraph "hiss.json" = .error (.graph (.malformed .json)) := by
  have hp : extension? "hiss.json" = some "json" := by decide
  have hplace : empty.resolve "hiss.json" = .ok (.file ⟨.up 0, "hiss.json".toList⟩ false) := by
    decide
  have hname : isTooLong ⟨.up 0, "hiss.json".toList⟩ = false := by decide
  obtain ⟨d', hsave, hload, -⟩ := loadGraph_saveGraph (fits_hiss true) hp hplace hname
  obtain ⟨e', hsave', -, hload'⟩ := loadGraph_saveGraph (fits_hiss false) hp hplace hname
  exact ⟨hp, ⟨d', hsave, hload (by decide)⟩, e', hsave', hload' (by decide)⟩

end SpeechDecoder.Folder
