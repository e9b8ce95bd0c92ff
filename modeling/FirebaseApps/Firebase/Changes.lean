import FirebaseApps.Firebase.Data
import Mathlib.Data.List.Induction

/-!
# A document as the replay of its changes

What Firestore holds at a path is determined by the changes applied there, in order:
a document is created, fields are merged into it, or it is deleted.  A merge names
some fields and leaves the others alone, so each field has the value of the last
merge that names it, whatever the merges of other fields were doing
(`Document.replay_key`).
-/

namespace FirebaseApps

/-- A change of the document at one path. -/
inductive Change
  /-- A new document with these fields. -/
  | create (fields : Fields)
  /-- `setData(…, merge: true)`, which creates the document when it is absent. -/
  | merge (fields : Fields)
  | delete
  deriving DecidableEq, Repr

/-- The document after a change. -/
def Change.apply (doc : Option Document) : Change → Option Document
  | .create fields => some (Document.empty.merge fields)
  | .merge fields => some ((doc.getD .empty).merge fields)
  | .delete => none

/-- What a field is when it is written so. -/
def FieldValue.toOption : FieldValue → Option Value
  | .value v => some v
  | .delete => none

namespace Document

/-- A merge leaves the fields that it does not name alone. -/
theorem merge_of_notMem (doc : Document) {fields : Fields} {key : String}
    (h : key ∉ fields.map Prod.fst) : doc.merge fields key = doc key := by
  have hnone : fields.lookup key = none := by
    refine List.lookup_eq_none_iff.mpr fun field hmem => bne_iff_ne.mpr ?_
    rintro rfl
    exact h (List.mem_map_of_mem hmem)
  rw [merge, hnone]

/-- The document after a run of merges. -/
def replay (doc : Document) (edits : List Fields) : Document := edits.foldl merge doc

/-- The last thing that a run of merges says about a field. -/
def lastEdit (edits : List Fields) (key : String) : Option FieldValue :=
  (edits.filterMap (List.lookup key)).getLast?

/-- **A field has the value of the last merge that names it.** -/
theorem replay_key (doc : Document) (edits : List Fields) (key : String) :
    doc.replay edits key = ((lastEdit edits key).map FieldValue.toOption).getD (doc key) := by
  induction edits using List.reverseRecOn with
  | nil => rfl
  | append_singleton edits fields ih =>
      have hlast : doc.replay (edits ++ [fields]) = (doc.replay edits).merge fields := by
        simp [replay]
      rw [hlast, merge, lastEdit, List.filterMap_append, List.getLast?_append]
      cases hlookup : fields.lookup key with
      | none => simpa [hlookup, lastEdit] using ih
      | some v => cases v <;> simp [hlookup, FieldValue.toOption]

/-- Merging into a document that exists is replaying the merges on it. -/
theorem foldl_apply_merge (doc : Document) (edits : List Fields) :
    (edits.map Change.merge).foldl Change.apply (some doc) = some (doc.replay edits) := by
  induction edits generalizing doc with
  | nil => rfl
  | cons fields edits ih => exact ih (doc.merge fields)

end Document
end FirebaseApps
