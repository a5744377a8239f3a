import Backchain.Clause.Basic
import Backchain.Term.Reader

/-!
# Reading clauses

The written form of a fact is that of its term. The written form of a rule is its head, the neck
`:-` and the goals of its body with commas between them. A period may end a clause. Commas and
necks inside parentheses belong to an argument.
-/

namespace Backchain.Clause

/-- Whether the text after `c` is inside parentheses, given whether `c` is. -/
def insideAfter (inside : Bool) (c : Char) : Bool :=
  if c = '(' then true else if c = ')' then false else inside

/-- Cuts a text at the first neck outside parentheses. -/
def cutNeck? : (inside : Bool) → List Char → Option (List Char × List Char)
  | _, [] => none
  | inside, c :: rest =>
    if inside = false ∧ c = ':' ∧ rest.head? = some '-' then some ([], rest.tail)
    else (cutNeck? (insideAfter inside c) rest).map fun (before, after) => (c :: before, after)

def splitGoals : (inside : Bool) → List Char → List (List Char)
  | _, [] => [[]]
  | inside, c :: rest =>
    if inside = false ∧ c = ',' then [] :: splitGoals false rest
    else match splitGoals (insideAfter inside c) rest with
      | [] => [[c]]
      | goal :: goals => (c :: goal) :: goals

/-- The text without a period at its end and the blanks after that. -/
def dropPeriod (text : List Char) : List Char :=
  match text.reverse.dropWhile Char.isWhitespace with
  | '.' :: rest => rest.reverse
  | _ => text

/-- The clause of which the characters are a written form. -/
def ofChars? (text : List Char) : Option Clause :=
  match cutNeck? false (dropPeriod text) with
  | none => (Term.ofChars? (dropPeriod text)).map .fact
  | some (head, body) => do
    let head ← Term.ofChars? head
    let body ← (splitGoals false body).mapM Term.ofChars?
    return .rule ⟨head, body⟩

def read (text : String) : Except Error Clause :=
  match ofChars? text.toList with
  | some clause => .ok clause
  | none => .error (.malformedTerm (Text.trim text))

-- ---------------------------------------------------------------------------
-- Laws
-- ---------------------------------------------------------------------------

theorem read_eq_ok_iff {text : String} {clause : Clause} :
    read text = .ok clause ↔ ofChars? text.toList = some clause := by
  unfold read
  split <;> simp_all

theorem read_eq_error_iff {text : String} {e : Error} :
    read text = .error e ↔ ofChars? text.toList = none ∧ e = .malformedTerm (Text.trim text) := by
  unfold read
  split
  · rename_i h
    simp [h]
  · rename_i h
    simp [h, eq_comm]

theorem splitGoals_ne_nil (inside : Bool) (text : List Char) : splitGoals inside text ≠ [] := by
  cases text with
  | nil => simp [splitGoals]
  | cons c rest =>
    rw [splitGoals]
    split
    · simp
    · split <;> simp

theorem intercalate_splitGoals (inside : Bool) (text : List Char) :
    [','].intercalate (splitGoals inside text) = text := by
  induction text generalizing inside with
  | nil => rfl
  | cons c rest ih =>
    rw [splitGoals]
    split
    · rename_i h
      cases hs : splitGoals false rest with
      | nil => exact absurd hs (splitGoals_ne_nil _ _)
      | cons goal goals =>
        have := ih false
        simp_all [List.intercalate, List.intersperse]
    · split
      · rename_i hs
        exact absurd hs (splitGoals_ne_nil _ _)
      · rename_i goal goals hs
        have := ih (insideAfter inside c)
        rw [hs] at this
        cases goals <;> simp_all [List.intercalate, List.intersperse]

theorem eq_of_cutNeck? {inside : Bool} {text before after : List Char}
    (h : cutNeck? inside text = some (before, after)) : text = before ++ ':' :: '-' :: after := by
  induction text generalizing inside before with
  | nil => simp [cutNeck?] at h
  | cons c rest ih =>
    rw [cutNeck?] at h
    split at h
    · rename_i hc
      simp only [Option.some.injEq, Prod.mk.injEq] at h
      obtain ⟨rfl, rfl⟩ := h
      obtain ⟨-, rfl, hr⟩ := hc
      cases rest <;> simp_all
    · obtain ⟨⟨first, last⟩, hr, heq⟩ := Option.map_eq_some_iff.1 h
      simp only [Prod.mk.injEq] at heq
      obtain ⟨rfl, rfl⟩ := heq
      simp [ih hr]

end Backchain.Clause
