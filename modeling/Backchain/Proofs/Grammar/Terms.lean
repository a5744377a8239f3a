import Mathlib.Data.List.Forall2
import Mathlib.Data.List.TakeWhile
import Backchain.Term.Reader

/-!
# The grammar of terms

Which characters stand where in a written form of a term, said without the reader. The reader
accepts every written form, as the term that it is a written form of, and nothing else. What it
refuses it reports without the white space at both ends.
-/

namespace Backchain

-- ---------------------------------------------------------------------------
-- The grammar
-- ---------------------------------------------------------------------------

def Blank (c : Char) : Prop := c = ' ' ∨ c = '\t' ∨ c = '\r' ∨ c = '\n'

def SymbolChar (c : Char) : Prop :=
  'a' ≤ c ∧ c ≤ 'z' ∨ 'A' ≤ c ∧ c ≤ 'Z' ∨ '0' ≤ c ∧ c ≤ '9' ∨ c = '_'

def ArgumentChar (c : Char) : Prop :=
  c ≠ ',' ∧ c ≠ '(' ∧ c ≠ ')' ∧ ¬ Text.isWhiteSpace c

/-- A text of one or more items with commas between them, where `Form item piece` says that the
piece is a form of the item. -/
inductive Listed {α : Type} (Form : α → List Char → Prop) : List α → List Char → Prop where
  | one {item piece} (h : Form item piece) : Listed Form [item] piece
  | more {item piece items text} (h : Form item piece) (hs : Listed Form items text) :
      Listed Form (item :: items) (piece ++ ',' :: text)

def Atom.Written (a : Atom) (piece : List Char) : Prop :=
  ∃ before token after, piece = before ++ token ++ after ∧
    (∀ c ∈ before, Blank c) ∧ (∀ c ∈ after, Blank c) ∧
    token ≠ [] ∧ (∀ c ∈ token, ArgumentChar c) ∧ a = .ofToken (String.ofList token)

/-- The text is the symbol of the term and, in parentheses, its arguments, with blanks around all
that. -/
def Term.Written (t : Term) (text : List Char) : Prop :=
  ∃ before symbol inner after, text = before ++ (symbol ++ '(' :: (inner ++ ')' :: after)) ∧
    (∀ c ∈ before, Blank c) ∧ (∀ c ∈ after, Blank c) ∧
    symbol ≠ [] ∧ (∀ c ∈ symbol, SymbolChar c) ∧ t.symbol = String.ofList symbol ∧
    Listed Atom.Written t.arguments inner

namespace Text

/-- Of `text` without the characters of the class `p` at both ends, `core` is left. -/
def Stripped (p : Char → Bool) (text core : List Char) : Prop :=
  ∃ before after, text = before ++ core ++ after ∧ (∀ c ∈ before, p c) ∧ (∀ c ∈ after, p c) ∧
    (∀ c ∈ core.head?, ¬ p c) ∧ ∀ c ∈ core.getLast?, ¬ p c

end Text

-- ---------------------------------------------------------------------------
-- The characters of each kind
-- ---------------------------------------------------------------------------

theorem isWhitespace_iff {c : Char} : c.isWhitespace ↔ Blank c := by
  simp [Char.isWhitespace, Blank, or_assoc]

theorem isSymbolChar_iff {c : Char} : Term.isSymbolChar c ↔ SymbolChar c := by
  simp only [Term.isSymbolChar, SymbolChar, Bool.or_eq_true, beq_iff_eq, Char.le_def]
  delta Char.isAlphanum Char.isAlpha Char.isUpper Char.isLower Char.isDigit
  simp only [Bool.or_eq_true, Bool.and_eq_true, decide_eq_true_eq, ge_iff_le]
  grind

theorem isArgumentChar_iff {c : Char} : Term.isArgumentChar c ↔ ArgumentChar c := by
  simp [Term.isArgumentChar, ArgumentChar, and_assoc]

theorem SymbolChar.ne {c other : Char} (h : SymbolChar c) (ho : ¬ Term.isSymbolChar other) :
    c ≠ other := by
  rintro rfl
  exact ho (isSymbolChar_iff.2 h)

theorem SymbolChar.not_blank {c : Char} (h : SymbolChar c) : ¬ Blank c := by
  rintro (hb | hb | hb | hb) <;> exact h.ne (by decide) hb

theorem ArgumentChar.not_blank {c : Char} (h : ArgumentChar c) : ¬ Blank c :=
  fun hb => h.2.2.2 (Text.isWhiteSpace_of_isWhitespace (isWhitespace_iff.2 hb))

-- ---------------------------------------------------------------------------
-- Runs of characters
-- ---------------------------------------------------------------------------

namespace Text

variable {p : Char → Bool}

theorem span_eq_iff {text run right : List Char} {c : Char} :
    text.takeWhile p = run ∧ text.dropWhile p = c :: right ↔
      text = run ++ c :: right ∧ (∀ d ∈ run, p d) ∧ ¬ p c := by
  constructor
  · rintro ⟨rfl, hd⟩
    refine ⟨?_, fun d => List.mem_takeWhile_imp, ?_⟩
    · rw [← hd, List.takeWhile_append_dropWhile]
    · have := List.head?_dropWhile_not p text
      simpa [hd] using this
  · rintro ⟨rfl, hr, hc⟩
    rw [List.takeWhile_append_of_pos hr, List.dropWhile_append_of_pos hr,
      List.takeWhile_cons_of_neg hc, List.dropWhile_cons_of_neg hc, List.append_nil]
    exact ⟨rfl, rfl⟩

theorem head?_dropWhile (text : List Char) : ∀ c ∈ (text.dropWhile p).head?, ¬ p c := by
  intro c hc
  have := List.head?_dropWhile_not p text
  simp_all

theorem dropWhile_eq_self {text : List Char} (h : ∀ c ∈ text.head?, ¬ p c) :
    text.dropWhile p = text := by
  cases text with
  | nil => rfl
  | cons c rest => exact List.dropWhile_cons_of_neg (h c rfl)

theorem dropWhile_eq_strip_append (text : List Char) :
    text.dropWhile p = strip p text ++ ((text.dropWhile p).reverse.takeWhile p).reverse := by
  rw [strip, ← List.reverse_append, List.takeWhile_append_dropWhile, List.reverse_reverse]

theorem stripped_strip (text : List Char) : Stripped p text (strip p text) := by
  refine ⟨text.takeWhile p, ((text.dropWhile p).reverse.takeWhile p).reverse, ?_, ?_, ?_, ?_, ?_⟩
  · rw [List.append_assoc, ← dropWhile_eq_strip_append, List.takeWhile_append_dropWhile]
  · exact fun c => List.mem_takeWhile_imp
  · exact fun c hc => List.mem_takeWhile_imp (List.mem_reverse.1 hc)
  · intro c hc
    refine head?_dropWhile text c ?_
    rw [dropWhile_eq_strip_append, List.head?_append, hc]
    rfl
  · intro c hc
    refine head?_dropWhile (text.dropWhile p).reverse c ?_
    simpa [strip] using hc

theorem Stripped.eq_strip {text core : List Char} (h : Stripped p text core) :
    core = strip p text := by
  obtain ⟨before, after, rfl, hb, ha, hh, hl⟩ := h
  rw [strip, List.append_assoc, List.dropWhile_append_of_pos hb]
  -- With nothing left, the characters after it are dropped from the front already.
  cases core with
  | nil => simp [List.dropWhile_eq_nil_iff.2 ha]
  | cons c rest =>
    have hd : ((c :: rest) ++ after).dropWhile p = (c :: rest) ++ after :=
      dropWhile_eq_self (by simpa using hh)
    rw [hd, List.reverse_append,
      List.dropWhile_append_of_pos fun d hd => ha d (List.mem_reverse.1 hd),
      dropWhile_eq_self (by simpa only [List.head?_reverse] using hl), List.reverse_reverse]

theorem strip_eq_iff {text core : List Char} : strip p text = core ↔ Stripped p text core :=
  ⟨fun h => h ▸ stripped_strip text, fun h => h.eq_strip.symm⟩

theorem strip_concat {text : List Char} {c : Char} (h : p c) :
    strip p (text ++ [c]) = strip p text := by
  obtain ⟨before, after, htext, hbefore, hafter, hhead, hlast⟩ := stripped_strip text (p := p)
  refine strip_eq_iff.2 ⟨before, after ++ [c], ?_, hbefore, ?_, hhead, hlast⟩
  · simpa using congrArg (· ++ [c]) htext
  · intro d hd
    rcases List.mem_append.1 hd with hd | hd
    · exact hafter d hd
    · rwa [List.mem_singleton.1 hd]

theorem strip_strip (text : List Char) : strip p (strip p text) = strip p text := by
  obtain ⟨-, -, -, -, -, hhead, hlast⟩ := stripped_strip text (p := p)
  exact strip_eq_iff.2 ⟨[], [], by simp, by simp, by simp, hhead, hlast⟩

theorem trim_trim (text : String) : trim (trim text) = trim text := by
  rw [trim, trim, String.toList_ofList, strip_strip]

end Text

-- ---------------------------------------------------------------------------
-- Items with commas between them
-- ---------------------------------------------------------------------------

section Listed

variable {α : Type} {Form : α → List Char → Prop} {items : List α}

theorem Listed.intercalate {pieces : List (List Char)} (h : List.Forall₂ Form items pieces)
    (hne : pieces ≠ []) : Listed Form items ([','].intercalate pieces) := by
  induction h with
  | nil => exact absurd rfl hne
  | @cons item piece items pieces h hs ih =>
    cases pieces with
    | nil =>
      cases hs
      simpa using Listed.one h
    | cons next pieces =>
      rw [List.intercalate_cons_of_ne_nil (by simp), List.append_assoc]
      exact .more h (ih (by simp))

theorem listed_iff {text : List Char} :
    Listed Form items text ↔
      ∃ pieces, pieces ≠ [] ∧ text = [','].intercalate pieces ∧ List.Forall₂ Form items pieces := by
  constructor
  · intro h
    induction h with
    | one h => exact ⟨_, by simp, List.intercalate_singleton.symm, .cons h .nil⟩
    | @more item piece items text h _ ih =>
      obtain ⟨pieces, hne, rfl, hs⟩ := ih
      refine ⟨piece :: pieces, by simp, ?_, .cons h hs⟩
      rw [List.intercalate_cons_of_ne_nil hne, List.append_assoc]
      rfl
  · rintro ⟨pieces, hne, rfl, hs⟩
    exact .intercalate hs hne

theorem mapM_eq_some_iff {β : Type} {read? : β → Option α} {pieces : List β} :
    pieces.mapM read? = some items ↔
      List.Forall₂ (fun item piece => read? piece = some item) items pieces := by
  induction pieces generalizing items with
  | nil => cases items <;> simp
  | cons piece pieces ih =>
    simp only [List.mapM_cons, Option.bind_eq_bind, Option.bind_eq_some_iff]
    constructor
    · rintro ⟨item, hp, rest, hr, heq⟩
      cases heq
      exact .cons hp (ih.1 hr)
    · rintro (_ | ⟨hp, hs⟩)
      exact ⟨_, hp, _, ih.2 hs, rfl⟩

end Listed

-- ---------------------------------------------------------------------------
-- Atoms
-- ---------------------------------------------------------------------------

namespace Term

theorem readArgument?_eq_some_iff {piece : List Char} {a : Atom} :
    readArgument? piece = some a ↔ a.Written piece := by
  simp only [readArgument?, Option.ite_none_right_eq_some, Option.some.injEq, List.all_eq_true,
    isArgumentChar_iff]
  constructor
  · rintro ⟨⟨hne, hall⟩, rfl⟩
    obtain ⟨before, after, heq, hb, ha, -, -⟩ := Text.stripped_strip (p := Char.isWhitespace) piece
    exact ⟨before, _, after, heq, fun c hm => isWhitespace_iff.1 (hb c hm),
      fun c hm => isWhitespace_iff.1 (ha c hm), hne, hall, rfl⟩
  · rintro ⟨before, token, after, heq, hb, ha, hne, hall, rfl⟩
    -- No character of the token is blank, so the blanks around it are all that is stripped.
    have hn : ∀ c ∈ token, ¬ c.isWhitespace :=
      fun c hm hw => (hall c hm).not_blank (isWhitespace_iff.1 hw)
    have hs : Text.strip Char.isWhitespace piece = token :=
      Text.strip_eq_iff.2 ⟨before, after, heq, fun c hm => isWhitespace_iff.2 (hb c hm),
        fun c hm => isWhitespace_iff.2 (ha c hm), fun c hm => hn c (List.mem_of_mem_head? hm),
        fun c hm => hn c (List.mem_of_getLast? hm)⟩
    rw [hs]
    exact ⟨⟨hne, hall⟩, rfl⟩

end Term

/-- Of the characters that are neither blank nor part of a token, such as those that separate
arguments and end them, a written form of an atom has none. -/
theorem Atom.Written.not_mem {a : Atom} {piece : List Char} (h : a.Written piece) {c : Char}
    (hb : ¬ Blank c) (hc : ¬ ArgumentChar c) : c ∉ piece := by
  obtain ⟨before, token, after, rfl, hbefore, hafter, -, htoken, -⟩ := h
  simp only [List.mem_append, not_or]
  exact ⟨⟨fun hm => hb (hbefore c hm), fun hm => hc (htoken c hm)⟩, fun hm => hb (hafter c hm)⟩

theorem Atom.Written.comma_not_mem {a : Atom} {piece : List Char} (h : a.Written piece) :
    ',' ∉ piece :=
  h.not_mem (by simp [Blank]) (by simp [ArgumentChar])

theorem Atom.Written.close_not_mem {a : Atom} {piece : List Char} (h : a.Written piece) :
    ')' ∉ piece :=
  h.not_mem (by simp [Blank]) (by simp [ArgumentChar])

theorem Listed.close_not_mem {atoms : List Atom} {inner : List Char}
    (h : Listed Atom.Written atoms inner) : ')' ∉ inner := by
  induction h with
  | one h => exact h.close_not_mem
  | more h _ ih => simp [h.close_not_mem, ih]

namespace Term

theorem mapM_readArgument?_eq_some_iff {atoms : List Atom} {inner : List Char} :
    (inner.splitOn ',').mapM readArgument? = some atoms ↔ Listed Atom.Written atoms inner := by
  simp only [mapM_eq_some_iff, readArgument?_eq_some_iff]
  constructor
  · intro h
    have := Listed.intercalate h (by simp)
    rwa [List.intercalate_splitOn] at this
  · intro h
    induction h with
    | one h =>
      rw [List.splitOn_eq_singleton h.comma_not_mem]
      exact .cons h .nil
    | more h _ ih =>
      rw [List.splitOn_append_cons_self_of_not_mem h.comma_not_mem]
      exact .cons h ih

-- ---------------------------------------------------------------------------
-- Terms
-- ---------------------------------------------------------------------------

theorem toOption_make_eq_some_iff {symbol : String} {arguments : List Atom} {t : Term} :
    (make symbol arguments).toOption = some t ↔ t.symbol = symbol ∧ t.arguments = arguments := by
  rw [← make_eq_ok_iff]
  cases make symbol arguments <;> simp [Except.toOption]

theorem ofChars?_eq_some_iff_parts {text : List Char} {t : Term} :
    ofChars? text = some t ↔
      ∃ symbol inner after,
        text.dropWhile Char.isWhitespace = symbol ++ '(' :: (inner ++ ')' :: after) ∧
        (∀ c ∈ symbol, isSymbolChar c) ∧ ')' ∉ inner ∧ (∀ c ∈ after, c.isWhitespace) ∧
        t.symbol = String.ofList symbol ∧
        (inner.splitOn ',').mapM readArgument? = some t.arguments := by
  constructor
  · intro h
    simp only [ofChars?] at h
    split at h
    · rename_i rest hopen
      split at h
      · cases h
      · rename_i c after hclose
        split at h
        · rename_i hall
          obtain ⟨arguments, hread, hmake⟩ := Option.bind_eq_some_iff.1 h
          obtain ⟨hsymbol, rfl⟩ := toOption_make_eq_some_iff.1 hmake
          obtain ⟨hstart, hrun, -⟩ := Text.span_eq_iff.1 ⟨rfl, hopen⟩
          obtain ⟨hrest, hinner, hc⟩ := Text.span_eq_iff.1 ⟨rfl, hclose⟩
          obtain rfl : c = ')' := by simpa using hc
          refine ⟨_, _, after, ?_, hrun, ?_, List.all_eq_true.1 hall, hsymbol, hread⟩
          · rw [← hrest]
            exact hstart
          · exact fun hm => by simpa using hinner _ hm
        · cases h
    · cases h
  · rintro ⟨symbol, inner, after, hstart, hrun, hinner, hall, hsymbol, hread⟩
    obtain ⟨htake, hdrop⟩ := Text.span_eq_iff.2 ⟨hstart, hrun, by decide⟩
    obtain ⟨htake', hdrop'⟩ : (inner ++ ')' :: after).takeWhile (· != ')') = inner ∧
        (inner ++ ')' :: after).dropWhile (· != ')') = ')' :: after :=
      Text.span_eq_iff.2
        ⟨rfl, fun c hm => bne_iff_ne.2 (ne_of_mem_of_not_mem hm hinner), by decide⟩
    have hmake : (make (String.ofList symbol) t.arguments).toOption = some t :=
      toOption_make_eq_some_iff.2 ⟨hsymbol, rfl⟩
    simp only [ofChars?, htake, hdrop, htake', hdrop', if_pos (List.all_eq_true.2 hall), hread]
    exact hmake

theorem ofChars?_eq_some_iff {text : List Char} {t : Term} :
    ofChars? text = some t ↔ t.Written text := by
  rw [ofChars?_eq_some_iff_parts]
  constructor
  · rintro ⟨symbol, inner, after, hstart, hrun, -, hall, hsymbol, hread⟩
    have hne : symbol ≠ [] := by
      rintro rfl
      exact t.symbol_ne hsymbol
    refine ⟨text.takeWhile Char.isWhitespace, symbol, inner, after, ?_,
      fun c hm => isWhitespace_iff.1 (List.mem_takeWhile_imp hm),
      fun c hm => isWhitespace_iff.1 (hall c hm), hne,
      fun c hm => isSymbolChar_iff.1 (hrun c hm), hsymbol, mapM_readArgument?_eq_some_iff.1 hread⟩
    rw [← hstart, List.takeWhile_append_dropWhile]
  · rintro ⟨before, symbol, inner, after, rfl, hb, ha, hne, hrun, hsymbol, hlist⟩
    have hstart : ∀ c ∈ (symbol ++ '(' :: (inner ++ ')' :: after)).head?, ¬ c.isWhitespace := by
      intro c hm hw
      rw [List.head?_append_of_ne_nil _ hne] at hm
      exact (hrun c (List.mem_of_mem_head? hm)).not_blank (isWhitespace_iff.1 hw)
    refine ⟨symbol, inner, after, ?_, fun c hm => isSymbolChar_iff.2 (hrun c hm),
      hlist.close_not_mem, fun c hm => isWhitespace_iff.2 (ha c hm), hsymbol,
      mapM_readArgument?_eq_some_iff.2 hlist⟩
    rw [List.dropWhile_append_of_pos fun c hm => isWhitespace_iff.2 (hb c hm),
      Text.dropWhile_eq_self hstart]

/-- A text is read as a term exactly when it is a written form of it. Every other text is malformed,
and is reported without the white space at its ends. No text is refused for an empty symbol or for
a lack of arguments. -/
theorem read_accepts_exactly_written (text : String) :
    (∀ t, read text = .ok t ↔ t.Written text.toList) ∧
      ((∀ t, ¬ Written t text.toList) →
        ∃ input, Text.Stripped Text.isWhiteSpace text.toList input ∧
          read text = .error (.malformedTerm (String.ofList input))) ∧
      read text ≠ .error .emptySymbol ∧
      ∀ symbol, read text ≠ .error (.noArguments symbol) := by
  refine ⟨fun t => by rw [read_eq_ok_iff, ofChars?_eq_some_iff], fun h => ?_, fun h => ?_,
    fun symbol h => ?_⟩
  · have hnone : ofChars? text.toList = none :=
      Option.eq_none_iff_forall_ne_some.2 fun t ht => h t (ofChars?_eq_some_iff.1 ht)
    exact ⟨_, Text.stripped_strip _, read_eq_error_iff.2 ⟨hnone, rfl⟩⟩
  · exact nomatch (read_eq_error_iff.1 h).2
  · exact nomatch (read_eq_error_iff.1 h).2

end Term

end Backchain
