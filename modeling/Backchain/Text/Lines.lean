/-!
# Lines

Cutting a sequence into lines. A separator ends a line, so nothing after the last separator is
no line, and a last line may lack its separator. Text is cut at the level of characters or of
bytes: in UTF-8 the byte of the line feed is part of no other character.
-/

namespace Backchain.Text

/-- The lines of a sequence, without their separators. -/
def lines [DecidableEq α] (separator : α) : List α → List (List α)
  | [] => []
  | x :: xs =>
    if x = separator then [] :: lines separator xs
    else match lines separator xs with
      | [] => [[x]]
      | line :: rest => (x :: line) :: rest

/-- The lines of a text, where a carriage return before a line feed is part of the line's end. -/
def textLines : List Char → List (List Char)
  | [] => []
  | '\n' :: rest => [] :: textLines rest
  | '\r' :: '\n' :: rest => [] :: textLines rest
  | c :: rest =>
    match textLines rest with
    | [] => [[c]]
    | line :: later => (c :: line) :: later

/-- The text that the bytes encode in UTF-8, if they are well-formed. -/
def decode? (bytes : List UInt8) : Option String := String.fromUTF8? ⟨bytes.toArray⟩

-- ---------------------------------------------------------------------------
-- Laws
-- ---------------------------------------------------------------------------

theorem not_mem_of_mem_lines [DecidableEq α] {separator : α} {xs line : List α}
    (h : line ∈ lines separator xs) : separator ∉ line := by
  induction xs generalizing line with
  | nil => simp [lines] at h
  | cons x xs ih =>
    rw [lines] at h
    split at h
    · rcases List.mem_cons.1 h with rfl | h
      · simp
      · exact ih h
    · rename_i hx
      split at h
      · rw [List.mem_singleton] at h
        simpa [h] using Ne.symm hx
      · rename_i first rest hl
        rcases List.mem_cons.1 h with rfl | h
        · have := ih (hl ▸ List.mem_cons_self)
          simpa [Ne.symm hx] using this
        · exact ih (hl ▸ List.mem_cons_of_mem _ h)

theorem decode?_encoded (text : String) : decode? text.toUTF8.data.toList = some text := by
  unfold decode? String.fromUTF8?
  rw [Array.toArray_toList, String.toUTF8_eq_toByteArray, dif_pos text.isValidUTF8]
  rfl

end Backchain.Text
