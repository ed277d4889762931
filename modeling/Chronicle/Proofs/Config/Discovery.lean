import Chronicle.Config.Load
import Chronicle.Proofs.Success
import Mathlib.Data.List.Basic

/-!
# Configurations that are found

A configuration is looked for under a base name and an extension, and read in the format
that its path tells.  Both agree unless the base leaves nothing in front of the dot: a
name that begins with its only dot has no extension.
-/

namespace Chronicle

open Success

namespace Path

/-! ## The last component of a path -/

def opensComponent (cs : List Char) : Bool :=
  cs.getLast?.all (· == '/')

def join (dir name : String) : String :=
  if name.toList.head? = some '/' then name
  else if opensComponent dir.toList then dir ++ name
  else dir ++ "/" ++ name

variable {cs front part : List Char} {c : Char}

theorem components_cons_slash (cs : List Char) : components ('/' :: cs) = [] :: components cs := rfl

theorem components_cons_of_ne {rest : List (List Char)} (plain : c ≠ '/')
    (begins : components cs = part :: rest) : components (c :: cs) = (c :: part) :: rest := by
  rw [components] at begins ⊢
  rw [List.foldr_cons, if_neg plain, begins]

theorem components_ne_nil (cs : List Char) : components cs ≠ [] := by
  induction cs with
  | nil => simp [components]
  | cons c cs ih =>
      by_cases slash : c = '/'
      · subst slash
        simp [components_cons_slash]
      · obtain ⟨part, rest, begins⟩ := List.exists_cons_of_ne_nil ih
        simp [components_cons_of_ne slash begins]

theorem components_of_not_mem (one : '/' ∉ part) : components part = [part] := by
  induction part with
  | nil => rfl
  | cons c part ih =>
      rw [List.mem_cons, not_or] at one
      exact components_cons_of_ne (Ne.symm one.1) (ih one.2)

theorem components_append_slash (front part : List Char) :
    components (front ++ '/' :: part) = components front ++ components part := by
  induction front with
  | nil => rfl
  | cons c front ih =>
      by_cases slash : c = '/'
      · subst slash
        rw [List.cons_append, components_cons_slash, components_cons_slash, ih, List.cons_append]
      · obtain ⟨first, rest, begins⟩ := List.exists_cons_of_ne_nil (components_ne_nil front)
        rw [begins, List.cons_append] at ih
        rw [List.cons_append, components_cons_of_ne slash ih, components_cons_of_ne slash begins,
          List.cons_append]

theorem exists_components_append (opens : opensComponent front) (one : '/' ∉ part) :
    ∃ before, components (front ++ part) = before ++ [part] := by
  rcases List.eq_nil_or_concat' front with rfl | ⟨front, c, rfl⟩
  · exact ⟨[], components_of_not_mem one⟩
  · obtain rfl : c = '/' := by simpa [opensComponent] using opens
    refine ⟨components front, ?_⟩
    rw [List.append_assoc, List.singleton_append, components_append_slash,
      components_of_not_mem one]

theorem nameOf?_of_last {path : String} (written : path.toList = front ++ part)
    (opens : opensComponent front) (one : '/' ∉ part) (name : ∃ c ∈ part, c ≠ '.') :
    nameOf? path = some part := by
  obtain ⟨before, components_eq⟩ := exists_components_append opens one
  obtain ⟨c, mem, letter⟩ := name
  have stays : part ≠ [] ∧ part ≠ ['.'] ∧ part ≠ ['.', '.'] := by
    refine ⟨?_, ?_, ?_⟩ <;> rintro rfl <;> simp [letter] at mem
  simp [nameOf?, steps, written, components_eq, stays]

theorem exists_last_component (cs : List Char) :
    ∃ front part, cs = front ++ part ∧ opensComponent front ∧ '/' ∉ part := by
  induction cs with
  | nil => exact ⟨[], [], rfl, rfl, List.not_mem_nil⟩
  | cons c cs ih =>
      obtain ⟨front, part, rfl, opens, one⟩ := ih
      by_cases starts : front = []
      · subst starts
        by_cases slash : c = '/'
        · subst slash
          exact ⟨['/'], part, rfl, rfl, one⟩
        · exact ⟨[], c :: part, rfl, rfl, by simp [one, Ne.symm slash]⟩
      · refine ⟨c :: front, part, rfl, ?_, one⟩
        rwa [opensComponent, List.getLast?_cons_of_ne_nil starts]

theorem opensComponent_append_iff (opens : opensComponent front) (one : '/' ∉ part) :
    opensComponent (front ++ part) ↔ part = [] := by
  rcases List.eq_nil_or_concat' part with rfl | ⟨part, c, rfl⟩
  · simpa using opens
  · have plain : c ≠ '/' := fun slash => one (by simp [slash])
    rw [← List.append_assoc]
    simp [opensComponent, plain]

theorem exists_join_eq (dir : String) {name : String} (written : name.toList = front ++ part)
    (opens : opensComponent front) :
    ∃ front', (join dir name).toList = front' ++ part ∧ opensComponent front' := by
  have behind {before : List Char} (opened : opensComponent before) :
      opensComponent (before ++ front) := by
    rcases List.eq_nil_or_concat' front with rfl | ⟨front, c, rfl⟩
    · simpa using opened
    · rw [← List.append_assoc]
      simpa [opensComponent] using opens
  rw [join]
  split
  · exact ⟨front, written, opens⟩
  · split
    · next opened => exact ⟨dir.toList ++ front, by simp [written], behind opened⟩
    · exact ⟨dir.toList ++ ['/'] ++ front, by simp [written], behind (by simp [opensComponent])⟩

/-! ## Extensions -/

theorem extensionOf?_append {stem ext : List Char} (plain : '.' ∉ ext) :
    extensionOf? (stem ++ '.' :: ext) = if stem = [] then none else some ext := by
  have passed : ∀ c ∈ ext.reverse, (c != '.') = true := by
    intro c mem
    have other : c ≠ '.' := fun dot => plain (by simpa [dot] using mem)
    simpa using other
  have backwards : (stem ++ '.' :: ext).reverse = ext.reverse ++ '.' :: stem.reverse := by simp
  rw [extensionOf?, backwards, List.dropWhile_append_of_pos passed,
    List.takeWhile_append_of_pos passed]
  rcases List.eq_nil_or_concat' stem with rfl | ⟨stem, c, rfl⟩ <;> simp

end Path

namespace Config

/-! ## Formats of candidates -/

variable {base dir path : String} {f : Format}

def LacksStem (base : String) : Prop :=
  Path.opensComponent base.toList

instance (base : String) : Decidable (LacksStem base) :=
  inferInstanceAs (Decidable (_ = true))

theorem Format.extension_plain (f : Format) :
    '.' ∉ f.extension.toList ∧ '/' ∉ f.extension.toList ∧ ∃ c ∈ f.extension.toList, c ≠ '.' := by
  cases f <;> exact ⟨by decide, by decide, _, List.mem_cons_self, by decide⟩

theorem extension?_candidate (dir base : String) (f : Format) :
    Path.extension? (Path.join dir (candidate base f)) =
      if LacksStem base then none else some f.extension := by
  obtain ⟨dotless, flat, c, mem, letter⟩ := f.extension_plain
  obtain ⟨front, stem, base_eq, opens, one⟩ := Path.exists_last_component base.toList
  have written : (candidate base f).toList = front ++ (stem ++ '.' :: f.extension.toList) := by
    simp [candidate, base_eq]
  obtain ⟨front', written, opens'⟩ := Path.exists_join_eq dir written opens
  have name : Path.nameOf? (Path.join dir (candidate base f)) =
      some (stem ++ '.' :: f.extension.toList) :=
    Path.nameOf?_of_last written opens' (by simp [one, flat]) ⟨c, by simp [mem], letter⟩
  have bare : LacksStem base ↔ stem = [] := by
    rw [LacksStem, base_eq]
    exact Path.opensComponent_append_iff opens one
  rw [Path.extension?, name, Option.bind_some, Path.extensionOf?_append dotless]
  by_cases empty : stem = []
  · rw [if_pos empty, if_pos (bare.mpr empty), Option.map_none]
  · rw [if_neg empty, if_neg (mt bare.mp empty), Option.map_some, String.ofList_toList]

theorem detect_of_extension (found : Path.extension? path = some f.extension) :
    detect path = .ok f := by
  have format : Format.ofPath? path = some f := by
    rw [Format.ofPath?, found]
    cases f <;> rfl
  rw [detect, format]

theorem detect_of_no_extension (missing : Path.extension? path = none) :
    detect path = .error (.unsupportedFormat path) := by
  have format : Format.ofPath? path = none := by
    rw [Format.ofPath?, missing]
    rfl
  rw [detect, format]

theorem detect_candidate (dir base : String) (f : Format) :
    detect (Path.join dir (candidate base f)) =
      if LacksStem base then .error (.unsupportedFormat (Path.join dir (candidate base f)))
      else .ok f := by
  have extension := extension?_candidate dir base f
  split
  · next bare => exact detect_of_no_extension (extension.trans (if_pos bare))
  · next stemmed => exact detect_of_extension (extension.trans (if_neg stemmed))

/-! ## What is found -/

/-- The path of the one file with a base name in a directory, whatever files there are. -/
def findIn (present : String → Bool) (dir base : String) : Except LoadError (Option String) :=
  match (Format.all.map fun f => Path.join dir (candidate base f)).filter present with
  | [] => .ok none
  | [path] => .ok (some path)
  | a :: b :: _ => .error (.conflictingFormats a b)

theorem find_eq_findIn (d : Directory) (base : String) :
    find d base = findIn (isPresent d) "" base := by
  have away : (fun f => Path.join "" (candidate base f)) = candidate base := by
    funext f
    simp [Path.join, Path.opensComponent]
  rw [findIn, away]
  rfl

theorem candidate_of_findIn {present : String → Bool}
    (found : findIn present dir base = .ok (some path)) :
    ∃ f, path = Path.join dir (candidate base f) ∧ present path := by
  have kept : path ∈ (Format.all.map fun f => Path.join dir (candidate base f)).filter present := by
    rw [findIn] at found
    split at found
    · simp at found
    · next only =>
        simp only [Except.ok.injEq, Option.some.injEq] at found
        rw [only, found]
        exact List.mem_singleton_self path
    · simp at found
  obtain ⟨mem, there⟩ := List.mem_filter.mp kept
  obtain ⟨f, -, rfl⟩ := List.mem_map.mp mem
  exact ⟨f, rfl, there⟩

/-! ## Loading what is found -/

variable (parse? : Format → String → Option Limits)

theorem load_unsupported_iff (d : Directory) {other : String} :
    load parse? d path = .error (.unsupportedFormat other) ↔
      detect path = .error (.unsupportedFormat other) := by
  rw [load, except_bind_eq_error, or_iff_left]
  rintro ⟨f, -, failed⟩
  split at failed
  · simp [except_throw_eq_error] at failed
  · split at failed
    · simp [except_throw_eq_error] at failed
    · split at failed <;> simp [except_throw_eq_error, except_pure_eq_error] at failed

theorem find_ne_unsupported (d : Directory) (base other : String) :
    find d base ≠ .error (.unsupportedFormat other) := by
  rw [find]
  split <;> simp

theorem loadBase_unsupported_iff (d : Directory) (base : String) :
    (∃ path, loadBase parse? d base = .error (.unsupportedFormat path)) ↔
      LacksStem base ∧ ∃ path, find d base = .ok (some path) := by
  constructor
  · rintro ⟨other, failed⟩
    rw [loadBase, except_bind_eq_error, or_iff_right (find_ne_unsupported d base other)] at failed
    obtain ⟨found, looked, failed⟩ := failed
    cases found with
    | none => exact (except_pure_eq_error.mp failed).elim
    | some path =>
        obtain ⟨f, rfl, -⟩ := candidate_of_findIn (find_eq_findIn d base ▸ looked)
        have refused := (load_unsupported_iff parse? d).mp failed
        rw [detect_candidate] at refused
        by_cases bare : LacksStem base
        · exact ⟨bare, _, looked⟩
        · simp [bare] at refused
  · rintro ⟨bare, path, looked⟩
    obtain ⟨f, rfl, -⟩ := candidate_of_findIn (find_eq_findIn d base ▸ looked)
    have refused :=
      (load_unsupported_iff parse? d).mpr ((detect_candidate "" base f).trans (if_pos bare))
    exact ⟨_, except_bind_eq_error.mpr (.inr ⟨_, looked, refused⟩)⟩

/-- The file that is found for a base is one of its candidates, and its path tells the format
that it was looked for in.  Only where the base leaves nothing in front of the dot does the
path tell no format, and loading fails for the format exactly there. -/
theorem found_file_format (base : String) :
    (∀ present dir path, findIn present dir base = .ok (some path) →
      ∃ f, path = Path.join dir (candidate base f) ∧ present path ∧
        detect path = if LacksStem base then .error (.unsupportedFormat path) else .ok f) ∧
      ∀ d, find d base = findIn (isPresent d) "" base ∧
        ((∃ path, loadBase parse? d base = .error (.unsupportedFormat path)) ↔
          LacksStem base ∧ ∃ path, find d base = .ok (some path)) := by
  refine ⟨?_, fun d => ⟨find_eq_findIn d base, loadBase_unsupported_iff parse? d base⟩⟩
  intro present dir path found
  obtain ⟨f, rfl, there⟩ := candidate_of_findIn found
  exact ⟨f, rfl, there, detect_candidate dir base f⟩

theorem found_file_format_rewind :
    findIn (· == "saves/rewind.toml") "saves" "rewind" = .ok (some "saves/rewind.toml") ∧
      detect "saves/rewind.toml" = .ok .toml ∧
      ¬ ∃ path, loadBase Format.limits? ⟨[("rewind.toml", [])]⟩ "rewind" =
        .error (.unsupportedFormat path) := by
  have found : findIn (· == "saves/rewind.toml") "saves" "rewind" =
      .ok (some "saves/rewind.toml") := by rfl
  have stemmed : ¬ LacksStem "rewind" := by decide
  obtain ⟨f, looked, -, told⟩ := (found_file_format Format.limits? "rewind").1 _ _ _ found
  have toml : f = .toml := by
    cases f with
    | toml => rfl
    | ron => exact absurd looked (by decide)
    | json => exact absurd looked (by decide)
  rw [if_neg stemmed, toml] at told
  refine ⟨found, told, fun fails => ?_⟩
  exact stemmed (((found_file_format Format.limits? "rewind").2 _).2.mp fails).1

/-- The empty base finds a file that begins with the dot, and cannot load it. -/
theorem found_file_unsupported :
    find ⟨[(".json", [0x7b, 0x7d])]⟩ "" = .ok (some ".json") ∧
      detect ".json" = .error (.unsupportedFormat ".json") ∧
      loadBase Format.limits? ⟨[(".json", [0x7b, 0x7d])]⟩ "" =
        .error (.unsupportedFormat ".json") :=
  ⟨rfl, rfl, rfl⟩

end Config

end Chronicle
