import Backchain.Proofs.Json.Quoted

/-!
# What an export shows

A written value delimits itself when its text shows, whatever comes after it, the value and where
it ends. A string literal does so by its closing quotation mark. Then so does a member of an object,
and an array or an object of values that do: after each of them stands a comma or the closing
bracket, and no value begins with that bracket. An exported substitution is an object of string
literals, so the export shows the names and the texts of the values in their order. The kinds of the
values are all that it does not show.
-/

namespace Backchain

namespace Json

-- ---------------------------------------------------------------------------
-- Texts that show where they end
-- ---------------------------------------------------------------------------

section Delimits

variable {α : Type} {write : α → List Char}

/-- A written value can be split off the front of any text, as that value only. -/
def Delimits (write : α → List Char) : Prop :=
  ∀ ⦃a b : α⦄ ⦃rest more : List Char⦄, write a ++ rest = write b ++ more → a = b ∧ rest = more

theorem Delimits.injective (h : Delimits write) : Function.Injective write := by
  intro a b hab
  exact (h (congrArg (· ++ []) hab)).1

theorem delimits_quote : Delimits fun text : String => quote text.toList := by
  intro text other rest more h
  obtain ⟨hchars, hrest⟩ := quote_append_inj h
  exact ⟨String.toList_inj.1 hchars, hrest⟩

theorem Delimits.member (h : Delimits write) :
    Delimits fun (key, value) => quote (key : String).toList ++ ':' :: write value := by
  rintro ⟨key, value⟩ ⟨otherKey, otherValue⟩ rest more htext
  simp only [List.append_assoc, List.cons_append] at htext
  obtain ⟨rfl, hvalues⟩ := delimits_quote htext
  obtain ⟨rfl, hrest⟩ := h (List.cons.inj hvalues).2
  exact ⟨rfl, hrest⟩

-- The induction is on the values after the first, each with the comma before it.
theorem Delimits.tail (h : Delimits write) {closing : Char} (hcomma : closing ≠ ',')
    {items others : List α} {rest more : List Char}
    (htext : (items.flatMap fun a => ',' :: write a) ++ closing :: rest =
      (others.flatMap fun a => ',' :: write a) ++ closing :: more) :
    items = others ∧ rest = more := by
  induction items generalizing others with
  | nil =>
    cases others with
    | nil => exact ⟨rfl, (List.cons.inj htext).2⟩
    | cons b others => exact absurd (List.cons.inj htext).1 hcomma
  | cons a items ih =>
    cases others with
    | nil => exact absurd (List.cons.inj htext).1.symm hcomma
    | cons b others =>
      simp only [List.flatMap_cons, List.cons_append, List.append_assoc] at htext
      obtain ⟨rfl, htail⟩ := h (List.cons.inj htext).2
      obtain ⟨rfl, hrest⟩ := ih htail
      exact ⟨rfl, hrest⟩

theorem intercalate_cons_map (a : α) (items : List α) :
    [','].intercalate ((a :: items).map write) =
      write a ++ items.flatMap fun b => ',' :: write b := by
  induction items generalizing a with
  | nil => simp
  | cons b items ih =>
    rw [List.map_cons, List.map_cons, List.intercalate_cons_cons, ← List.map_cons, ih]
    simp

theorem cons_ne_write_append {first c : Char} (hfirst : ∀ a, (write a).head? = some first)
    (hne : c ≠ first) (a : α) (rest more : List Char) : c :: rest ≠ write a ++ more := by
  intro h
  have hhead := congrArg List.head? h
  rw [List.head?_append, hfirst, List.head?_cons, Option.some_or] at hhead
  exact hne (Option.some.inj hhead)

theorem Delimits.bracketed (h : Delimits write) (opening closing : Char) {first : Char}
    (hfirst : ∀ a, (write a).head? = some first) (hne : closing ≠ first) (hcomma : closing ≠ ',') :
    Delimits fun items : List α => opening :: [','].intercalate (items.map write) ++ [closing] := by
  intro items others rest more htext
  simp only [List.cons_append, List.append_assoc, List.nil_append, List.cons.injEq,
    true_and] at htext
  -- Without values, the closing bracket stands where otherwise the first value begins.
  cases items with
  | nil =>
    cases others with
    | nil => exact ⟨rfl, (List.cons.inj htext).2⟩
    | cons b others =>
      rw [intercalate_cons_map, List.append_assoc] at htext
      exact absurd htext (cons_ne_write_append hfirst hne b _ _)
  | cons a items =>
    cases others with
    | nil =>
      rw [intercalate_cons_map, List.append_assoc] at htext
      exact absurd htext.symm (cons_ne_write_append hfirst hne a _ _)
    | cons b others =>
      rw [intercalate_cons_map, intercalate_cons_map, List.append_assoc, List.append_assoc] at htext
      obtain ⟨rfl, htail⟩ := h htext
      obtain ⟨rfl, hrest⟩ := h.tail hcomma htail
      exact ⟨rfl, hrest⟩

end Delimits

theorem delimits_array {α : Type} {write : α → List Char} (h : Delimits write) {first : Char}
    (hfirst : ∀ a, (write a).head? = some first) (hne : ']' ≠ first) :
    Delimits fun items : List α => array (items.map write) :=
  h.bracketed '[' ']' hfirst hne (by decide)

theorem delimits_object {α : Type} {write : α → List Char} (h : Delimits write) :
    Delimits fun fields : List (String × α) =>
      object (fields.map fun (key, value) => (key, write value)) := by
  have hmembers := h.member.bracketed '\x7b' '\x7d' (fun _ => rfl) (by decide) (by decide)
  simpa [object, Function.comp_def] using hmembers

end Json

namespace Substitution

def texts (s : Substitution) : List (String × String) :=
  s.bindings.map fun (name, value) => (name, value.name)

def ofTexts (pairs : List (String × String)) : Substitution :=
  ⟨pairs.map fun (name, text) => (name, .ofToken text)⟩

theorem ofTexts_texts {s : Substitution} (h : ∀ pair ∈ s.bindings, pair.2.Conventional) :
    ofTexts s.texts = s := by
  have hback : ∀ pair ∈ s.bindings, (pair.1, Atom.ofToken pair.2.name) = pair := by
    intro pair hm
    rw [h pair hm]
  rw [ofTexts, texts, List.map_map]
  congr 1
  exact (List.map_congr_left hback).trans (List.map_id' _)

theorem map_ofTexts_map_texts {substitutions : List Substitution}
    (h : ∀ s ∈ substitutions, ∀ pair ∈ s.bindings, pair.2.Conventional) :
    (substitutions.map texts).map ofTexts = substitutions := by
  rw [List.map_map]
  exact (List.map_congr_left fun s hm => ofTexts_texts (h s hm)).trans (List.map_id' _)

theorem toJson_eq_object_texts (s : Substitution) :
    s.toJson = Json.object (s.texts.map fun (name, text) => (name, Json.quote text.toList)) := by
  rw [texts, List.map_map]
  rfl

theorem listToJson_eq_array_texts (substitutions : List Substitution) :
    listToJson substitutions = Json.array ((substitutions.map texts).map fun pairs =>
      Json.object (pairs.map fun (name, text) => (name, Json.quote text.toList))) := by
  rw [listToJson, List.map_map]
  congr 1
  exact List.map_congr_left fun s _ => s.toJson_eq_object_texts

/-- Two lists of substitutions have the same JSON text exactly if they are as long and bind, index
by index, the same names to the same texts in the same order. The text does not show which of the
values are variables; where the names of all of them tell, it shows the lists themselves. -/
theorem listToJson_eq_iff_texts_eq (first second : List Substitution) :
    (listToJson first = listToJson second ↔ first.map texts = second.map texts) ∧
      ((∀ s ∈ first ++ second, ∀ pair ∈ s.bindings, pair.2.Conventional) →
        (listToJson first = listToJson second ↔ first = second)) := by
  have hjson : listToJson first = listToJson second ↔ first.map texts = second.map texts := by
    rw [listToJson_eq_array_texts, listToJson_eq_array_texts]
    exact (Json.delimits_array (Json.delimits_object Json.delimits_quote) (fun _ => rfl)
      (by decide)).injective.eq_iff
  -- Where the texts tell the kinds, the lists are made from the texts again.
  refine ⟨hjson, fun hconventional => ⟨fun h => ?_, congrArg listToJson⟩⟩
  rw [List.forall_mem_append] at hconventional
  rw [← map_ofTexts_map_texts hconventional.1, hjson.1 h, map_ofTexts_map_texts hconventional.2]

def embedded : Substitution := ⟨[("X", .const "a\",\"Y\":\"b\\")]⟩

def separate : Substitution := ⟨[("X", .const "a"), ("Y", .const "b\\")]⟩

theorem listToJson_embedded_ne_separate :
    (∀ s ∈ [embedded] ++ [separate], ∀ pair ∈ s.bindings, pair.2.Conventional) ∧
      listToJson [embedded] ≠ listToJson [separate] := by
  have hconventional :
      ∀ s ∈ [embedded] ++ [separate], ∀ pair ∈ s.bindings, pair.2.Conventional := by
    decide +kernel
  refine ⟨hconventional, fun h => ?_⟩
  have hequal := ((listToJson_eq_iff_texts_eq [embedded] [separate]).2 hconventional).1 h
  exact absurd hequal (by decide)

example : listToJson [⟨[("X", .var "a")]⟩] = listToJson [⟨[("X", .const "a")]⟩] := rfl

end Substitution

end Backchain
