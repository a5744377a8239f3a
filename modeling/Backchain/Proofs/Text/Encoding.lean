import Mathlib.Data.List.Forall2
import Backchain.Text.Lines

/-!
# Lines of encoded text

In UTF-8 the byte of the line feed belongs to the line feed alone. So the bytes of a text fall into
lines as its characters do, and each line of bytes encodes a line of characters.
-/

namespace Backchain.Text

-- ---------------------------------------------------------------------------
-- Lines
-- ---------------------------------------------------------------------------

section Lines

variable {α : Type} [DecidableEq α] {separator : α}

theorem lines_append {run : List α} (h : separator ∉ run) (hne : run ≠ []) (rest : List α) :
    lines separator (run ++ rest) =
      match lines separator rest with
      | [] => [run]
      | line :: later => (run ++ line) :: later := by
  induction run with
  | nil => exact absurd rfl hne
  | cons x run ih =>
    obtain ⟨hx, hrun⟩ := not_or.1 (mt List.mem_cons.2 h)
    rw [List.cons_append, lines, if_neg (Ne.symm hx)]
    cases run with
    | nil => rfl
    | cons y run =>
      rw [ih hrun (List.cons_ne_nil _ _)]
      cases lines separator rest <;> rfl

theorem lines_append_separator {line : List α} (h : separator ∉ line) (rest : List α) :
    lines separator (line ++ separator :: rest) = line :: lines separator rest := by
  have hcut : lines separator (separator :: rest) = [] :: lines separator rest := by
    rw [lines, if_pos rfl]
  cases line with
  | nil => exact hcut
  | cons x line =>
    rw [lines_append h (List.cons_ne_nil _ _), hcut]
    simp

theorem lines_flatMap_append {items : List (List α)} (h : ∀ line ∈ items, separator ∉ line)
    (rest : List α) :
    lines separator (items.flatMap (· ++ [separator]) ++ rest) = items ++ lines separator rest := by
  induction items with
  | nil => rfl
  | cons line items ih =>
    obtain ⟨hline, hitems⟩ := List.forall_mem_cons.1 h
    rw [List.flatMap_cons, List.append_assoc, List.append_assoc, List.singleton_append,
      lines_append_separator hline, ih hitems, List.cons_append]

theorem lines_flatMap {items : List (List α)} (h : ∀ line ∈ items, separator ∉ line) :
    lines separator (items.flatMap (· ++ [separator])) = items := by
  simpa [lines] using lines_flatMap_append h []

end Lines

theorem forall₂_textLines (text : List Char) :
    List.Forall₂ (fun line whole => whole = line ∨ whole = line ++ ['\r'])
      (textLines text) (lines '\n' text) := by
  fun_induction textLines text with
  | case1 => exact .nil
  | case2 rest ih =>
    rw [lines, if_pos rfl]
    exact .cons (.inl rfl) ih
  | case3 rest ih =>
    have hreturn : lines '\n' ('\r' :: '\n' :: rest) = ['\r'] :: lines '\n' rest := by
      simp [lines]
    rw [hreturn]
    exact .cons (.inr rfl) ih
  | case4 c rest hfeed _ hlines ih =>
    rw [hlines, List.forall₂_nil_left_iff] at ih
    rw [lines, if_neg hfeed, ih]
    exact .cons (.inl rfl) .nil
  | case5 c rest hfeed _ line later hlines ih =>
    rw [hlines, List.forall₂_cons_left_iff] at ih
    obtain ⟨whole, wholes, hline, hlater, hwhole⟩ := ih
    rw [lines, if_neg hfeed, hwhole]
    refine .cons ?_ hlater
    rcases hline with rfl | rfl
    · exact .inl rfl
    · exact .inr rfl

-- ---------------------------------------------------------------------------
-- Bytes
-- ---------------------------------------------------------------------------

theorem toUTF8_eq_flatMap (text : String) :
    text.toUTF8.data.toList = text.toList.flatMap String.utf8EncodeChar := by
  rw [String.toUTF8_eq_toByteArray, ← String.utf8Encode_toList]
  exact List.toList_data_toByteArray

theorem lineFeed_mem_utf8EncodeChar_iff {c : Char} : 10 ∈ String.utf8EncodeChar c ↔ c = '\n' := by
  have hten (n : Nat) : (10 : UInt8) = UInt8.ofNat n ↔ n % 256 = 10 := by
    rw [← UInt8.toNat_inj, UInt8.toNat_ofNat', eq_comm]
    rfl
  have hc : c = '\n' ↔ c.val.toNat = 10 := by
    rw [← Char.toNat_inj]
    rfl
  simp only [hc, String.utf8EncodeChar]
  split
  · simp only [List.mem_singleton, hten]
    omega
  -- All bytes of a character that needs several are 128 or more.
  · refine iff_of_false ?_ (by omega)
    split
    · simp only [List.mem_cons, List.not_mem_nil, or_false, hten]
      omega
    · split <;>
      · simp only [List.mem_cons, List.not_mem_nil, or_false, hten]
        omega

theorem lines_flatMap_utf8EncodeChar (text : List Char) :
    lines 10 (text.flatMap String.utf8EncodeChar) =
      (lines '\n' text).map (List.flatMap String.utf8EncodeChar) := by
  induction text with
  | nil => rfl
  | cons c text ih =>
    by_cases hc : c = '\n'
    · subst hc
      have hbyte : String.utf8EncodeChar '\n' = [10] := rfl
      simp [lines, hbyte, ih]
    · have hrun : 10 ∉ String.utf8EncodeChar c := mt lineFeed_mem_utf8EncodeChar_iff.1 hc
      rw [List.flatMap_cons, lines_append hrun String.utf8EncodeChar_ne_nil, ih, lines, if_neg hc]
      cases lines '\n' text <;> simp

theorem lines_toUTF8 (text : String) :
    lines 10 text.toUTF8.data.toList =
      (lines '\n' text.toList).map fun line => (String.ofList line).toUTF8.data.toList := by
  rw [toUTF8_eq_flatMap, lines_flatMap_utf8EncodeChar]
  refine List.map_congr_left fun line _ => ?_
  rw [toUTF8_eq_flatMap, String.toList_ofList]

end Backchain.Text
