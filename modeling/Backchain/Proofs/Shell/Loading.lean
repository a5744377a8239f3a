import Backchain.Proofs.Shell.Sessions

/-!
# Files that load

A file loads if it can be read, is UTF-8, and each of its lines is passed over or holds a clause.
What was added before does not matter, so the files load if each of them does.
-/

namespace Backchain.Shell

instance : DecidablePred Loadable := fun line =>
  inferInstanceAs (Decidable (isPassedOver (Text.trim line) ∨ (clauseOn? line).isSome))

def LoadableContent (content : Content) : Prop :=
  ∃ bytes text, content = .ok bytes ∧ Text.decode? bytes = some text ∧
    ∀ line ∈ fileLines text, Loadable line

theorem textOf_eq_ok_iff {content : Content} {text : String} :
    textOf content = .ok text ↔
      ∃ bytes, content = .ok bytes ∧ Text.decode? bytes = some text := by
  simp only [textOf, bind_eq_ok_iff]
  refine exists_congr fun bytes => and_congr_right fun _ => ?_
  cases Text.decode? bytes <;> simp

theorem loadableContent_iff {content : Content} :
    LoadableContent content ↔
      ∃ text, textOf content = .ok text ∧ ∀ line ∈ fileLines text, Loadable line := by
  simp only [textOf_eq_ok_iff]
  constructor
  · rintro ⟨bytes, text, hcontent, hdecode, hlines⟩
    exact ⟨text, ⟨bytes, hcontent, hdecode⟩, hlines⟩
  · rintro ⟨text, ⟨bytes, hcontent, hdecode⟩, hlines⟩
    exact ⟨bytes, text, hcontent, hdecode, hlines⟩

instance : DecidablePred LoadableContent := fun content =>
  match h : textOf content with
  | .error _ => isFalse fun hload => by simp [loadableContent_iff, h] at hload
  | .ok text => decidable_of_iff (∀ line ∈ fileLines text, Loadable line) <| by
    simp [loadableContent_iff, h]

-- ---------------------------------------------------------------------------
-- Failures
-- ---------------------------------------------------------------------------

namespace Loading

@[simp]
theorem failure_after (earlier : List LogEntry) (loading : Loading) :
    (loading.after earlier).failure = loading.failure := rfl

theorem failure_andThen_eq_none_iff {loading : Loading} {next : Reasoner → Loading} :
    (loading.andThen next).failure = none ↔
      loading.failure = none ∧ (next loading.reasoner).failure = none := by
  unfold andThen
  cases h : loading.failure with
  | some failure => simp [h]
  | none => simp

end Loading

section
variable {path : String} {reasoner : Reasoner} {number : Nat}

theorem loadLines_failure_eq_none_iff {lines : List String} :
    (loadLines path reasoner number lines).failure = none ↔ ∀ line ∈ lines, Loadable line := by
  constructor
  · intro h
    induction lines generalizing reasoner number with
    | nil => simp
    | cons line lines ih =>
      rw [List.forall_mem_cons]
      rw [loadLines] at h
      split at h
      · rename_i hpassed
        exact ⟨.inl hpassed, ih h⟩
      · split at h
        · cases h
        · rename_i clause added htell
          have hclause : clauseOn? line = some clause :=
            clauseOn?_eq_some_iff.2 (Reasoner.tellText_eq_ok_iff.1 htell).1
          exact ⟨.inr (by simp [hclause]), ih h⟩
  · intro h
    obtain ⟨log, hload⟩ := loadLines_eq h path reasoner number
    rw [hload]

theorem loadFile_failure_eq_none_iff {content : Content} :
    (loadFile path content reasoner).failure = none ↔ LoadableContent content := by
  rw [loadableContent_iff, loadFile, Loading.failure_after]
  cases textOf content with
  | error cause => simp
  | ok text =>
    rw [Loading.failure_andThen_eq_none_iff, loadText_eq, loadLines_failure_eq_none_iff]
    simp

theorem loadFiles_failure_eq_none_iff {files : List (String × Content)} :
    (loadFiles files reasoner).failure = none ↔ ∀ file ∈ files, LoadableContent file.2 := by
  induction files generalizing reasoner with
  | nil => simp [loadFiles]
  | cons file files ih =>
    rw [loadFiles, Loading.failure_andThen_eq_none_iff, loadFile_failure_eq_none_iff, ih,
      List.forall_mem_cons]

end

def Loads (options : Options) (read : String → Content) : Prop :=
  ∀ path ∈ options.paths, LoadableContent (read path)

instance (options : Options) (read : String → Content) : Decidable (Loads options read) :=
  inferInstanceAs (Decidable (∀ path ∈ options.paths, LoadableContent (read path)))

section
variable {options : Options} {read : String → Content}

theorem preload_failure_eq_none_iff :
    (preload options read).failure = none ↔ Loads options read := by
  rw [Loads, preload, start, Loading.failure_after, loadFiles_failure_eq_none_iff,
    List.forall_mem_map]

theorem exists_failure_of_not_loads (h : ¬ Loads options read) :
    ∃ failure, (preload options read).failure = some failure :=
  Option.ne_none_iff_exists'.1 (mt preload_failure_eq_none_iff.1 h)

end

end Backchain.Shell
