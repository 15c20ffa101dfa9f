import SourceIndex.File.Finding
import SourceIndex.File.Language
import SourceIndex.Json.Library
import SourceIndex.Ownership.Contribution
import SourceIndex.Ownership.ProjectStats

/-!
# Records in JSON

The fields of the six records that are exchanged, under the keys that they have in a document.
-/

namespace SourceIndex

open Json (Record)

/-- A contribution as a record. -/
def Contribution.record : Record Contribution where
  fields := .cons "name".toList .text <| .cons "line_count".toList .word <|
    .cons "most_recent_commit_unix_timestamp".toList .signedWord .nil
  values c := (c.name, c.lineCount, c.lastCommit, ())
  ofValues := fun (name, lineCount, lastCommit, ()) => ⟨name, lineCount, lastCommit⟩
  ofValues_values _ := rfl
  distinct := by decide
  depth_lt := by decide

/-- The count of a language as a record. -/
def LanguageCount.record : Record LanguageCount where
  fields := .cons "language_name".toList .text <| .cons "count".toList .word .nil
  values l := (l.language, l.count, ())
  ofValues := fun (language, count, ()) => ⟨language, count⟩
  ofValues_values _ := rfl
  distinct := by decide
  depth_lt := by decide

/-- The count of a contributor as a record. -/
def OwnerCount.record : Record OwnerCount where
  fields := .cons "owner".toList .text <| .cons "count".toList .word .nil
  values o := (o.owner, o.count, ())
  ofValues := fun (owner, count, ()) => ⟨owner, count⟩
  ofValues_values _ := rfl
  distinct := by decide
  depth_lt := by decide

/-- The make-up of a project as a record. -/
def ProjectStats.record : Record ProjectStats where
  fields := .cons "total_files".toList .word <|
    .cons "languages".toList (.list (.record LanguageCount.record.fields)) <|
    .cons "owners".toList (.list (.record OwnerCount.record.fields)) .nil
  values s := (s.totalFiles, s.languages.map LanguageCount.record.values, s.owners.map OwnerCount.record.values, ())
  ofValues := fun (totalFiles, languages, owners, ()) =>
    ⟨totalFiles, List.map LanguageCount.record.ofValues languages, List.map OwnerCount.record.ofValues owners⟩
  ofValues_values s :=
    congr (congrArg (ProjectStats.mk s.totalFiles) (LanguageCount.record.map_ofValues_map_values s.languages))
      (OwnerCount.record.map_ofValues_map_values s.owners)
  distinct := by decide
  depth_lt := by decide

/-- A finding as a record. -/
def Finding.record : Record Finding where
  fields := .cons "is_binary".toList .truth <| .cons "reason".toList .text .nil
  values f := (f.isBinary, f.reason, ())
  ofValues := fun (isBinary, reason, ()) => ⟨isBinary, reason⟩
  ofValues_values _ := rfl
  distinct := by decide
  depth_lt := by decide

/-- A language as a record. -/
def Language.record : Record Language where
  fields := .cons "language".toList .text <| .cons "extensions".toList (.list .text) .nil
  values l := (l.name, l.extensions, ())
  ofValues := fun (name, extensions, ()) => ⟨name, extensions⟩
  ofValues_values _ := rfl
  distinct := by decide
  depth_lt := by decide

end SourceIndex
