import Mathlib.Tactic.SplitIfs
import Backchain.Json.Export

/-!
# String literals are read back

A string literal is cut into pieces, one for each character of the text that it quotes: a control
character without a short escape comes back as the bits that its escape spells, every other
character as itself. No piece is half of a character, so the pieces make up the text again. The
quotation mark at the end is the first that no backslash announces. So a literal tells, whatever
comes after it, where it ends and what it quotes.
-/

namespace Backchain

namespace Json

-- ---------------------------------------------------------------------------
-- One character
-- ---------------------------------------------------------------------------

def pieceOf (c : Char) : Piece :=
  if c.toNat < 0x20 ∧ c ∉ ['\x08', '\x0c', '\n', '\r', '\t'] then .unit c.toNat else .char c

theorem hexValue?_hexDigit : ∀ n < 16, hexValue? (hexDigit n) = some n := by decide

theorem hexNumber?_control {n : Nat} (h : n < 0x20) :
    hexNumber? ['0', '0', hexDigit (n / 16), hexDigit (n % 16)] = some n := by
  have hhigh := hexValue?_hexDigit (n / 16) (by omega)
  have hlow := hexValue?_hexDigit (n % 16) (by omega)
  have hzero : hexValue? '0' = some 0 := rfl
  simp only [hexNumber?, List.foldlM_cons, List.foldlM_nil, hzero, hhigh, hlow, Option.map_some,
    Option.bind_eq_bind, Option.bind_some, Option.pure_def, Option.some.injEq]
  omega

def withPiece (piece : Piece) (rest : Option (List Piece × List Char)) :
    Option (List Piece × List Char) :=
  rest.map fun (pieces, after) => (piece :: pieces, after)

theorem pieces?_backslash {escaped c : Char} (hother : escaped ≠ 'u')
    (h : unescape? escaped = some c) (rest : List Char) :
    pieces? ('\\' :: escaped :: rest) = withPiece (.char c) (pieces? rest) := by
  rw [pieces?.eq_def]
  dsimp only
  rw [if_neg (by decide), if_pos rfl]
  split
  · rename_i heq
    exact absurd (List.cons.inj heq).1 hother
  · rename_i heq
    obtain ⟨rfl, rfl⟩ := List.cons.inj heq
    rw [h]
    cases pieces? rest <;> rfl
  · rename_i heq
    cases heq

theorem pieces?_unicode {h i j k : Char} {bits : Nat} (hbits : hexNumber? [h, i, j, k] = some bits)
    (rest : List Char) :
    pieces? ('\\' :: 'u' :: h :: i :: j :: k :: rest) = withPiece (.unit bits) (pieces? rest) := by
  rw [pieces?.eq_def]
  dsimp only
  rw [if_neg (by decide), if_pos rfl]
  change (do
    let bits ← hexNumber? [h, i, j, k]
    let (pieces, after) ← pieces? rest
    return (Piece.unit bits :: pieces, after)) = _
  rw [hbits]
  cases pieces? rest <;> rfl

theorem pieces?_verbatim {c : Char} (hquote : c ≠ '"') (hbackslash : c ≠ '\\')
    (hcontrol : ¬ c.toNat < 0x20) (rest : List Char) :
    pieces? (c :: rest) = withPiece (.char c) (pieces? rest) := by
  rw [pieces?.eq_def]
  dsimp only
  rw [if_neg hquote, if_neg hbackslash, if_neg hcontrol]
  cases pieces? rest <;> rfl

theorem pieces?_escape_append (c : Char) (rest : List Char) :
    pieces? (escape c ++ rest) = withPiece (pieceOf c) (pieces? rest) := by
  unfold escape
  -- Seven characters have a short escape, which `unescape?` undoes; then come the other control
  -- characters, and last those that stand for themselves.
  split_ifs with hquote hbackslash hbackspace hfeed hnewline hreturn htab hcontrol
  · subst hquote
    exact pieces?_backslash (by decide) rfl rest
  · subst hbackslash
    exact pieces?_backslash (by decide) rfl rest
  · exact hbackspace ▸ pieces?_backslash (by decide) rfl rest
  · exact hfeed ▸ pieces?_backslash (by decide) rfl rest
  · exact hnewline ▸ pieces?_backslash (by decide) rfl rest
  · exact hreturn ▸ pieces?_backslash (by decide) rfl rest
  · exact htab ▸ pieces?_backslash (by decide) rfl rest
  · have hpiece : pieceOf c = .unit c.toNat :=
      if_pos ⟨hcontrol, by simp [hbackspace, hfeed, hnewline, hreturn, htab]⟩
    rw [hpiece]
    exact pieces?_unicode (hexNumber?_control hcontrol) rest
  · have hpiece : pieceOf c = .char c := if_neg fun h => hcontrol h.1
    rw [hpiece]
    exact pieces?_verbatim hquote hbackslash hcontrol rest

theorem joinSurrogates?_pieceOf_cons (c : Char) (pieces : List Piece) :
    joinSurrogates? (pieceOf c :: pieces) = (joinSurrogates? pieces).map (c :: ·) := by
  unfold pieceOf
  split_ifs with h
  · have hbits : c.toNat < 0xD800 ∨ 0xE000 ≤ c.toNat := by omega
    rw [joinSurrogates?.eq_def]
    dsimp only
    rw [if_pos hbits, Char.ofNat_toNat]
  · rw [joinSurrogates?]

-- ---------------------------------------------------------------------------
-- A whole literal
-- ---------------------------------------------------------------------------

theorem pieces?_quoted (text after : List Char) :
    pieces? (text.flatMap escape ++ '"' :: after) = some (text.map pieceOf, after) := by
  induction text with
  | nil =>
    rw [List.flatMap_nil, List.nil_append, pieces?.eq_def]
    rfl
  | cons c text ih =>
    rw [List.flatMap_cons, List.append_assoc, pieces?_escape_append, ih]
    rfl

theorem joinSurrogates?_map_pieceOf (text : List Char) :
    joinSurrogates? (text.map pieceOf) = some text := by
  induction text with
  | nil => rfl
  | cons c text ih =>
    rw [List.map_cons, joinSurrogates?_pieceOf_cons, ih]
    rfl

theorem quote_append (text rest : List Char) :
    quote text ++ rest = '"' :: (text.flatMap escape ++ '"' :: rest) := by
  simp [quote]

theorem unquote?_quote (text : List Char) : unquote? (quote text) = some text := by
  have hquote : quote text = '"' :: (text.flatMap escape ++ ['"']) := by
    simpa using quote_append text []
  have hstart : (quote text).dropWhile Char.isWhitespace = quote text := by
    rw [hquote]
    exact List.dropWhile_cons_of_neg (by decide)
  rw [unquote?, hstart, hquote]
  change (do
    let (pieces, after) ← pieces? (text.flatMap escape ++ ['"'])
    if after.all Char.isWhitespace then joinSurrogates? pieces else none) = _
  rw [pieces?_quoted]
  exact joinSurrogates?_map_pieceOf text

theorem quote_append_inj {text other rest more : List Char}
    (h : quote text ++ rest = quote other ++ more) : text = other ∧ rest = more := by
  rw [quote_append, quote_append] at h
  have hpieces := congrArg pieces? (List.cons.inj h).2
  rw [pieces?_quoted, pieces?_quoted] at hpieces
  obtain ⟨hmap, rfl⟩ := Prod.mk.inj (Option.some.inj hpieces)
  have htext := joinSurrogates?_map_pieceOf text
  rw [hmap, joinSurrogates?_map_pieceOf] at htext
  exact ⟨(Option.some.inj htext).symm, rfl⟩

end Json

namespace Atom

theorem conventional_iff {a : Atom} :
    a.Conventional ↔ a.isVariable = a.name.toList.head?.any Text.isUppercase := by
  unfold Conventional ofToken
  cases h : a.name.toList.head?.any Text.isUppercase <;> cases a <;> simp [name, isVariable]

theorem ofJson?_toJson (a : Atom) : ofJson? a.toJson = some (ofToken a.name) := by
  rw [ofJson?, toJson, Json.unquote?_quote, Option.map_some, String.ofList_toList]

/-- An atom comes back from JSON as what its name stands for, so with the kind that the convention
gives to the name. It is the same atom exactly if it had that kind, and the same JSON text in any
case. -/
theorem ofJson?_toJson_reclassifies (a : Atom) :
    ofJson? a.toJson = some (ofToken a.name) ∧
      (ofJson? a.toJson = some a ↔ a.isVariable = a.name.toList.head?.any Text.isUppercase) ∧
      (ofJson? a.toJson).map toJson = some a.toJson := by
  refine ⟨ofJson?_toJson a, ?_, ?_⟩
  · rw [ofJson?_toJson, Option.some.injEq]
    exact conventional_iff
  · rw [ofJson?_toJson, Option.map_some, toJson, name_ofToken, toJson]

end Atom

end Backchain
