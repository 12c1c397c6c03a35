import FluidSizing.Files
import Mathlib.Data.List.Basic

/-! Files that are written. Where a path leads depends on the directory only if it leads nowhere
(`Directory.target_of_ok`), so behind a write the same path leads to the new content (`read_put`), and
every other name keeps its own (`content?_put_of_ne`). Writing succeeds just on the paths that lead to a
name in the directory (`write_of_writable`, `exists_writable_of_write`). -/

namespace FluidSizing

/-- Text that is written as UTF-8 is read back. -/
theorem decodeUtf8_encodeUtf8 (text : Text) : decodeUtf8 (encodeUtf8 text) = some text := by
  have hread : String.fromUTF8? (String.ofList text).toUTF8 = some (String.ofList text) := by
    rw [String.fromUTF8?, String.toUTF8_eq_toByteArray, dif_pos (String.ofList text).isValidUTF8]
    rfl
  rw [decodeUtf8, encodeUtf8, hread, Option.map_some, String.toList_ofList]

namespace Directory

variable {files : Directory} {path name : Text} {content : ByteArray}

/-- A path leads to a name in the directory that can be given to a file. -/
structure Writable (files : Directory) (path name : Text) : Prop where
  target : files.target path = .ok (.name true name false)
  size : Text.byteSize name ≤ maxNameSize

theorem Writable.name_eq {name' : Text} (h : files.Writable path name)
    (h' : files.Writable path name') : name = name' := by
  have htarget := h.target.symm.trans h'.target
  simpa using htarget

/-- The file with a new content, if it is the one of the name. -/
def replace (name : Text) (content : ByteArray) (file : File) : File :=
  if file.name = name then ⟨name, content⟩ else file

theorem name_replace (name : Text) (content : ByteArray) (file : File) :
    (replace name content file).name = file.name := by
  unfold replace
  split
  · rename_i hname
    exact hname.symm
  · rfl

theorem find?_replace (files : Directory) (other name : Text) (content : ByteArray) :
    (files.map (replace name content)).find? (fun file => file.name = other) =
      (files.find? fun file => file.name = other).map (replace name content) := by
  have hname : ((fun file : File => decide (file.name = other)) ∘ replace name content) =
      fun file => decide (file.name = other) := by
    funext file
    rw [Function.comp_apply, name_replace]
  rw [List.find?_map, hname]

theorem put_eq (files : Directory) (name : Text) (content : ByteArray) :
    files.put name content =
      if files.any fun file => file.name = name then files.map (replace name content)
      else files ++ [⟨name, content⟩] := rfl

theorem content?_put_self (files : Directory) (name : Text) (content : ByteArray) :
    (files.put name content).content? name = some content := by
  rw [put_eq, content?]
  split
  · rename_i hany
    obtain ⟨file, hfile⟩ : ∃ file, files.find? (fun file => file.name = name) = some file :=
      Option.isSome_iff_exists.mp (List.find?_isSome.mpr (List.any_eq_true.mp hany))
    have hname : file.name = name := by simpa using List.find?_some hfile
    have hreplaced : replace name content file = ⟨name, content⟩ := if_pos hname
    rw [find?_replace, hfile, Option.map_some, hreplaced, Option.map_some]
  · rename_i hany
    have hnone : (files.find? fun file => file.name = name) = none :=
      List.find?_eq_none.mpr fun file hfile hname => hany (List.any_eq_true.mpr ⟨file, hfile, hname⟩)
    have hnew : [File.mk name content].find? (fun file => file.name = name) =
        some ⟨name, content⟩ := by simp
    rw [List.find?_append, hnone, Option.none_or, hnew, Option.map_some]

theorem content?_put_of_ne {other : Text} (h : other ≠ name) (files : Directory) (content : ByteArray) :
    (files.put name content).content? other = files.content? other := by
  rw [put_eq, content?, content?]
  split
  · rw [find?_replace]
    cases hfile : files.find? fun file => file.name = other with
    | none => rfl
    | some file =>
        have hname : file.name = other := by simpa using List.find?_some hfile
        have hkept : replace name content file = file := if_neg (hname ▸ h)
        rw [Option.map_some, hkept]
  · have hnew : [File.mk name content].find? (fun file => file.name = other) = none := by
      simp [Ne.symm h]
    rw [List.find?_append, hnew, Option.or_none]

theorem follow_of_ok {others : Directory} {inside : Bool} {parts : List Text} {target : Target}
    (h : files.follow inside parts = .ok target) : others.follow inside parts = .ok target := by
  induction parts generalizing inside with
  | nil => exact h
  | cons part rest ih =>
      unfold follow at h ⊢
      split at h
      · rename_i hstay
        rw [if_pos hstay]
        exact ih h
      · rename_i hstay
        rw [if_neg hstay]
        split at h
        · rename_i hup
          rw [if_pos hup]
          exact ih h
        · rename_i hup
          rw [if_neg hup]
          split at h
          · rename_i hlast
            rw [if_pos hlast]
            exact h
          -- a name that more follows leads nowhere
          · split at h <;> cases h

/-- Where a path leads does not depend on the files. -/
theorem target_of_ok (others : Directory) {target : Target} (h : files.target path = .ok target) :
    others.target path = .ok target := by
  unfold Directory.target at h ⊢
  split at h
  · cases h
  · rename_i hnull
    rw [if_neg hnull]
    split at h
    · cases h
    · rename_i hempty
      rw [if_neg hempty]
      split at h
      · cases h
      · rename_i hlong
        rw [if_neg hlong]
        exact follow_of_ok h

theorem write_of_writable (h : files.Writable path name) (content : ByteArray) :
    files.write path content = .ok (files.put name content) := by
  simp [write, h.target, Nat.not_lt.mpr h.size]

theorem exists_writable_of_write {after : Directory} (h : files.write path content = .ok after) :
    ∃ name, files.Writable path name := by
  unfold write at h
  split at h
  · cases h
  · cases h
  · rename_i inside name slash htarget
    split at h
    · cases h
    · rename_i hslash
      split at h
      · cases h
      · rename_i hsize
        split at h
        · rename_i hinside
          refine ⟨name, ?_, Nat.le_of_not_lt hsize⟩
          rw [htarget, hinside, Bool.eq_false_iff.mpr hslash]
        · cases h

/-- What is written to a path is read from it. -/
theorem read_put (h : files.Writable path name) (content : ByteArray) :
    (files.put name content).read path = .ok content := by
  simp [read, target_of_ok _ h.target, lookup, Nat.not_lt.mpr h.size, content?_put_self]

end Directory

end FluidSizing
