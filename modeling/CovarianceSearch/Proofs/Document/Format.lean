import CovarianceSearch.Document.Convention
import CovarianceSearch.Proofs.Document.Datum

namespace CovarianceSearch

namespace Document

/-- Values that hold no others: whole numbers that fit into a word with a sign, finite reals, truth
values and texts. -/
def IsScalar : Datum → Prop
  | .bool _ | .text _ => True
  | .integer i => fitsWord i
  | .real x => x.isFinite
  | .null | .list _ | .table _ => False

def IsValue : Datum → Prop
  | .list items => ∀ d ∈ items, IsScalar d
  | d => IsScalar d

def IsKey (key : String) : Prop := key.toList ≠ [] ∧ ∀ c ∈ key.toList, c.isAlphanum ∨ c = '_'

structure IsSection (fields : Fields) : Prop where
  nodup : (fields.map (·.1)).Nodup
  isKey : ∀ field ∈ fields, IsKey field.1
  isValue : ∀ field ∈ fields, IsValue field.2

structure AreSections (sections : List (String × Fields)) : Prop where
  nodup : (sections.map (·.1)).Nodup
  isKey : ∀ s ∈ sections, IsKey s.1
  isSection : ∀ s ∈ sections, IsSection s.2

def ofSections (sections : List (String × Fields)) : Datum :=
  .table (sections.map fun s ↦ (s.1, .table s.2))

def written (fields : Fields) : Fields := fields.filter (!·.2.isNull)

def writtenSections (sections : List (String × Fields)) : List (String × Fields) :=
  sections.map fun s ↦ (s.1, written s.2)

variable {fields : Fields} {sections : List (String × Fields)}

theorem IsSection.tail {field : String × Datum} (h : IsSection (field :: fields)) :
    IsSection fields where
  nodup := (List.nodup_cons.1 h.nodup).2
  isKey := fun field hfield ↦ h.isKey field (List.mem_cons_of_mem _ hfield)
  isValue := fun field hfield ↦ h.isValue field (List.mem_cons_of_mem _ hfield)

theorem AreSections.tail {s : String × Fields} (h : AreSections (s :: sections)) :
    AreSections sections where
  nodup := (List.nodup_cons.1 h.nodup).2
  isKey := fun s hs ↦ h.isKey s (List.mem_cons_of_mem _ hs)
  isSection := fun s hs ↦ h.isSection s (List.mem_cons_of_mem _ hs)

theorem nodup_written (h : (fields.map (·.1)).Nodup) : ((written fields).map (·.1)).Nodup :=
  h.sublist (List.filter_sublist.map _)

end Document

namespace Format

/-- Every datum can be written. Reals that are not finite are written as null, and all else is read
as it was written, unless it is nested too deep. -/
structure KeepsData (f : Format) : Prop where
  writes : ∀ d, ∃ text, f.write d = .ok text
  write_settled : ∀ d, f.write d.settled = f.write d
  reads_written : ∀ d text, d.Fits → d.nesting ≤ 127 → (∀ x ∈ d.reals, x.isFinite) →
    f.write d = .ok text → f.read? text = some d

/-- Scalars stand for themselves, null is left out, whole numbers that a word with a sign cannot
hold are refused, and all else is read as it was written. -/
structure KeepsSections (f : Format) : Prop where
  convention : ∃ blank surplus, f.convention = .literal blank surplus
  omits_null : ∀ sections, f.write (Document.ofSections (Document.writtenSections sections)) =
    f.write (Document.ofSections sections)
  refuses : ∀ sections, ∀ s ∈ sections, ∀ key i, (key, .integer i) ∈ s.2 →
    Int64.maxValue.toInt < i → f.write (Document.ofSections sections) = .error .unsupported
  reads_written : ∀ sections, Document.AreSections sections →
    ∃ text, f.write (Document.ofSections sections) = .ok text ∧
      f.read? text = some (Document.ofSections sections)

end Format

end CovarianceSearch
