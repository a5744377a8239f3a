import Backchain.Proofs.Grammar.Printing
import Backchain.Substitution

/-!
# Printed substitutions

A token may have colons and braces in it, but neither blanks nor commas. So where the names and the
values of a substitution are tokens, the commas in its print stand between bindings, and the first
blank of a binding stands between the name with its colon and the value. To cut the print at the
commas and each piece at the blank gives the bindings back, in their order. Their kinds come back
with them if names tell them.
-/

namespace Backchain

/-- With one more blank at the start there is a blank before each piece, and only commas are left
between the pieces. -/
theorem blank_cons_intercalate {pieces : List (List Char)} (hne : pieces ≠ []) :
    ' ' :: [',', ' '].intercalate pieces = [','].intercalate (pieces.map (' ' :: ·)) := by
  induction pieces with
  | nil => exact absurd rfl hne
  | cons piece pieces ih =>
    cases pieces with
    | nil => simp
    | cons next pieces =>
      have hrest := ih (by simp)
      simp only [List.map_cons, List.intercalate_cons_cons] at hrest ⊢
      rw [← hrest]
      simp

theorem Atom.Textual.not_mem_name {a : Atom} (h : a.Textual) {c : Char} (hc : ¬ ArgumentChar c) :
    c ∉ a.name.toList :=
  fun hm => hc (h.name c hm)

namespace Substitution

structure TextualBinding (pair : String × Atom) : Prop where
  name : (Atom.var pair.1).Textual
  value : pair.2.Textual

def Textual (s : Substitution) : Prop := ∀ pair ∈ s.bindings, TextualBinding pair

-- ---------------------------------------------------------------------------
-- One binding
-- ---------------------------------------------------------------------------

def bindingText (pair : String × Atom) : List Char :=
  pair.1.toList ++ ':' :: ' ' :: pair.2.name.toList

def readBinding (piece : List Char) : String × Atom :=
  let name := (piece.takeWhile (· != ' ')).dropLast
  let value := (piece.dropWhile (· != ' ')).tail
  (String.ofList name, .ofToken (String.ofList value))

namespace TextualBinding

variable {pair : String × Atom} (h : TextualBinding pair)
include h

theorem comma_not_mem : ',' ∉ bindingText pair := by
  have hcomma : ¬ ArgumentChar ',' := by simp [ArgumentChar]
  have hname : ',' ∉ pair.1.toList := h.name.not_mem_name hcomma
  have hvalue : ',' ∉ pair.2.name.toList := h.value.not_mem_name hcomma
  simp [bindingText, hname, hvalue]

theorem readBinding_bindingText : readBinding (bindingText pair) = pair := by
  have hblank : ' ' ∉ pair.1.toList := h.name.not_mem_name fun hc => hc.not_blank (.inl rfl)
  have hrun : ∀ c ∈ pair.1.toList ++ [':'], (c != ' ') = true := by
    simp only [List.forall_mem_append, List.forall_mem_singleton, bne_iff_ne]
    exact ⟨fun c hc => ne_of_mem_of_not_mem hc hblank, by decide⟩
  have hcut : bindingText pair = (pair.1.toList ++ [':']) ++ ' ' :: pair.2.name.toList :=
    List.append_cons ..
  obtain ⟨htake, hdrop⟩ := Text.span_eq_iff.2 ⟨hcut, hrun, by simp⟩
  rw [readBinding, htake, hdrop, List.dropLast_concat, List.tail_cons, String.ofList_toList,
    String.ofList_toList, h.value.conventional]

end TextualBinding

-- ---------------------------------------------------------------------------
-- All bindings
-- ---------------------------------------------------------------------------

def readBindings (inner : List Char) : List (String × Atom) :=
  if inner = [] then [] else ((' ' :: inner).splitOn ',').map fun piece => readBinding piece.tail

def ofRender (text : String) : Substitution := ⟨readBindings text.toList.tail.dropLast⟩

theorem toList_render (s : Substitution) :
    s.render.toList =
      '\x7b' :: ([',', ' '].intercalate (s.bindings.map bindingText) ++ ['\x7d']) := by
  have hpieces : s.bindings.map bindingText =
      s.bindings.map fun pair => pair.1.toList ++ ':' :: ' ' :: pair.2.name.toList := rfl
  simp [render, hpieces, Function.comp_def]

theorem readBindings_intercalate {pairs : List (String × Atom)}
    (h : ∀ pair ∈ pairs, TextualBinding pair) :
    readBindings ([',', ' '].intercalate (pairs.map bindingText)) = pairs := by
  cases pairs with
  | nil => rfl
  | cons pair pairs =>
    have hne : [',', ' '].intercalate ((pair :: pairs).map bindingText) ≠ [] := by
      cases pairs <;> simp [bindingText]
    have hcomma : ∀ piece ∈ ((pair :: pairs).map bindingText).map (' ' :: ·), ',' ∉ piece := by
      simp only [List.forall_mem_map]
      exact fun other hm =>
        List.not_mem_cons_of_ne_of_not_mem (by decide) (h other hm).comma_not_mem
    have hback : ∀ other ∈ pair :: pairs, readBinding (bindingText other) = other :=
      fun other hm => (h other hm).readBinding_bindingText
    rw [readBindings, if_neg hne, blank_cons_intercalate (by simp),
      List.splitOn_intercalate ',' hcomma (by simp), List.map_map, List.map_map]
    exact (List.map_congr_left hback).trans (List.map_id' _)

/-- The print of a substitution with tokens for its names and values tells the substitution. -/
theorem Textual.ofRender_render {s : Substitution} (h : s.Textual) : ofRender s.render = s := by
  rw [ofRender, toList_render, List.tail_cons, List.dropLast_concat, readBindings_intercalate h]

theorem Textual.render_eq_iff {s t : Substitution} (hs : s.Textual) (ht : t.Textual) :
    s.render = t.render ↔ s.bindings = t.bindings := by
  constructor
  · intro h
    rw [← hs.ofRender_render, h, ht.ofRender_render]
  · intro h
    rw [render, render, h]

/-- A value that is no token can look like a value and another binding. -/
example :
    (⟨[("X", .const "a, Y: b")]⟩ : Substitution).render =
      (⟨[("X", .const "a"), ("Y", .const "b")]⟩ : Substitution).render := by
  decide

end Substitution

end Backchain
