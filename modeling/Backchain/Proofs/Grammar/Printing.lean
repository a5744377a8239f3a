import Backchain.Proofs.Grammar.Clauses

/-!
# Printing and reading

A printed text is one of the written forms of what it was printed from, unless that has a symbol or
an argument that no text can hold. What was read can always be printed and read again. So the
things that survive are those that come from texts: textual atoms, terms and clauses.
-/

namespace Backchain

-- ---------------------------------------------------------------------------
-- What a text can hold
-- ---------------------------------------------------------------------------

structure Atom.Textual (a : Atom) : Prop where
  name_ne : a.name ≠ ""
  name : ∀ c ∈ a.name.toList, ArgumentChar c
  conventional : a.Conventional

structure Term.Textual (t : Term) : Prop where
  symbol_ne : t.symbol ≠ ""
  symbol : ∀ c ∈ t.symbol.toList, SymbolChar c
  arguments : ∀ a ∈ t.arguments, a.Textual

/-- A rule without goals has the text of a fact, so it is not textual. -/
def Clause.Textual : Clause → Prop
  | .fact t => t.Textual
  | .rule ⟨head, body⟩ => head.Textual ∧ body ≠ [] ∧ ∀ goal ∈ body, goal.Textual

def Clause.render : Clause → String
  | .fact t => t.render
  | .rule r => r.render

-- ---------------------------------------------------------------------------
-- Items with a comma and a blank between them
-- ---------------------------------------------------------------------------

section Listed

variable {α : Type} {Form : α → List Char → Prop} {items : List α}

theorem Listed.blank_cons (hform : ∀ item piece, Form item piece → Form item (' ' :: piece))
    {text : List Char} (h : Listed Form items text) : Listed Form items (' ' :: text) := by
  cases h with
  | one h => exact .one (hform _ _ h)
  | more h hs => exact .more (hform _ _ h) hs

theorem Listed.intercalate_map (hform : ∀ item piece, Form item piece → Form item (' ' :: piece))
    {print : α → List Char} (h : ∀ item ∈ items, Form item (print item)) (hne : items ≠ []) :
    Listed Form items ([',', ' '].intercalate (items.map print)) := by
  induction items with
  | nil => exact absurd rfl hne
  | cons item items ih =>
    obtain ⟨hitem, hitems⟩ := List.forall_mem_cons.1 h
    cases items with
    | nil => simpa using Listed.one hitem
    | cons next items =>
      rw [List.map_cons, List.intercalate_cons_of_ne_nil (by simp), List.append_assoc]
      exact .more hitem ((ih hitems (by simp)).blank_cons hform)

theorem Listed.forall_mem {P : α → Prop} (hform : ∀ item piece, Form item piece → P item)
    {text : List Char} (h : Listed Form items text) : ∀ item ∈ items, P item := by
  induction h with
  | one h => simpa using hform _ _ h
  | more h _ ih => exact List.forall_mem_cons.2 ⟨hform _ _ h, ih⟩

theorem Listed.items_ne_nil {text : List Char} (h : Listed Form items text) : items ≠ [] := by
  cases h <;> simp

end Listed

-- ---------------------------------------------------------------------------
-- Atoms
-- ---------------------------------------------------------------------------

theorem forall_blank_cons {before : List Char} (h : ∀ c ∈ before, Blank c) :
    ∀ c ∈ ' ' :: before, Blank c :=
  List.forall_mem_cons.2 ⟨.inl rfl, h⟩

namespace Atom

variable {a : Atom} {piece : List Char}

theorem Written.blank_cons (h : a.Written piece) : a.Written (' ' :: piece) := by
  obtain ⟨before, token, after, rfl, hbefore, hrest⟩ := h
  exact ⟨' ' :: before, token, after, rfl, forall_blank_cons hbefore, hrest⟩

theorem Written.textual (h : a.Written piece) : a.Textual := by
  obtain ⟨-, token, -, -, -, -, hne, htoken, rfl⟩ := h
  have hname : String.ofList token ≠ "" := by simpa [← String.toList_inj] using hne
  exact ⟨by simpa using hname, by simpa using htoken, conventional_ofToken _⟩

theorem Textual.written (h : a.Textual) : a.Written a.name.toList := by
  refine ⟨[], a.name.toList, [], by simp, by simp, by simp, ?_, h.name, ?_⟩
  · exact mt String.toList_eq_nil_iff.1 h.name_ne
  · rw [String.ofList_toList, h.conventional]

end Atom

-- ---------------------------------------------------------------------------
-- Terms
-- ---------------------------------------------------------------------------

namespace Term

variable {t : Term} {text : List Char}

theorem toList_render (t : Term) :
    t.render.toList =
      t.symbol.toList ++
        '(' :: ([',', ' '].intercalate (t.arguments.map fun a => a.name.toList) ++ [')']) := by
  simp [render, Function.comp_def]

theorem Written.blank_cons (h : t.Written text) : t.Written (' ' :: text) := by
  obtain ⟨before, symbol, inner, after, rfl, hbefore, hrest⟩ := h
  exact ⟨' ' :: before, symbol, inner, after, rfl, forall_blank_cons hbefore, hrest⟩

theorem Written.append_blank (h : t.Written text) : t.Written (text ++ [' ']) := by
  obtain ⟨before, symbol, inner, after, rfl, hbefore, hafter, hrest⟩ := h
  refine ⟨before, symbol, inner, after ++ [' '], by simp, hbefore, ?_, hrest⟩
  exact List.forall_mem_append.2 ⟨hafter, by simp [Blank]⟩

theorem Written.textual (h : t.Written text) : t.Textual := by
  obtain ⟨-, symbol, inner, -, -, -, -, hne, hsymbol, heq, hlist⟩ := h
  exact ⟨t.symbol_ne, by simpa [heq] using hsymbol,
    hlist.forall_mem fun _ _ => Atom.Written.textual⟩

theorem Textual.written (h : t.Textual) : t.Written t.render.toList := by
  refine ⟨[], t.symbol.toList, _, [], toList_render t, by simp, by simp, ?_, h.symbol,
    String.ofList_toList.symm, ?_⟩
  · exact mt String.toList_eq_nil_iff.1 h.symbol_ne
  · exact .intercalate_map (fun _ _ h => h.blank_cons) (fun a ha => (h.arguments a ha).written)
      t.arguments_ne

theorem textual_of_read {text : String} (h : read text = .ok t) : t.Textual :=
  (ofChars?_eq_some_iff.1 (read_eq_ok_iff.1 h)).textual

theorem read_render (h : t.Textual) : read t.render = .ok t :=
  read_eq_ok_iff.2 (ofChars?_eq_some_iff.2 h.written)

/-- A term is read from its own print exactly if it is textual. All terms that are read from a text
are, so printing what was read and reading it again gives the same term. -/
theorem read_render_inverse_on_textual :
    (∀ t : Term, read t.render = .ok t ↔ t.Textual) ∧
      (∀ (text : String) (t : Term), read text = .ok t → t.Textual) ∧
      ∀ (text : String) (t : Term), read text = .ok t → read t.render = read text := by
  refine ⟨fun t => ⟨textual_of_read, read_render⟩, fun text t => textual_of_read, ?_⟩
  intro text t h
  rw [h, read_render (textual_of_read h)]

theorem read_render_likes :
    let likes : Term := ⟨"likes", [.var "X", .const "ana"], by simp, by simp⟩
    read "  likes(  X ,ana )  " = .ok likes ∧ likes.Textual ∧
      read likes.render = read "  likes(  X ,ana )  " := by
  intro likes
  have hread : read "  likes(  X ,ana )  " =
      .ok ⟨"likes", [.var "X", .const "ana"], by simp, by simp⟩ := by rfl
  obtain ⟨-, htextual, hagain⟩ := read_render_inverse_on_textual
  exact ⟨hread, htextual _ likes hread, hagain _ likes hread⟩

end Term

-- ---------------------------------------------------------------------------
-- Clauses
-- ---------------------------------------------------------------------------

theorem Rule.toList_render {r : Rule} (hne : r.body ≠ []) :
    r.render.toList =
      r.head.render.toList ++ [' '] ++ ':' :: '-' ::
        ' ' :: [',', ' '].intercalate (r.body.map fun goal => goal.render.toList) := by
  obtain ⟨head, body⟩ := r
  cases body with
  | nil => exact absurd rfl hne
  | cons goal goals => simp [render, Function.comp_def]

namespace Clause

variable {clause : Clause}

theorem Written.textual {text : List Char} (h : clause.Written text) : clause.Textual := by
  cases h with
  | fact h => exact h.textual
  | rule hh hb => exact ⟨hh.textual, hb.items_ne_nil, hb.forall_mem fun _ _ h => h.textual⟩

theorem Textual.written (h : clause.Textual) : clause.Written clause.render.toList := by
  cases clause with
  | fact t => exact .fact (Term.Textual.written h)
  | rule r =>
    obtain ⟨hhead, hne, hbody⟩ := h
    have hgoals : Listed Term.Written r.body
        ([',', ' '].intercalate (r.body.map fun goal => goal.render.toList)) :=
      .intercalate_map (fun _ _ h => h.blank_cons) (fun goal hm => (hbody goal hm).written) hne
    rw [render, Rule.toList_render hne]
    exact .rule hhead.written.append_blank (hgoals.blank_cons fun _ _ h => h.blank_cons)

theorem textual_of_read {text : String} (h : read text = .ok clause) : clause.Textual := by
  obtain ⟨core, ending, -, -, hw⟩ := read_eq_ok_iff_written.1 h
  exact hw.textual

theorem read_render_period (h : clause.Textual) : read (clause.render ++ ".") = .ok clause :=
  read_eq_ok_iff_written.2 ⟨_, ['.'], by simp, .inr ⟨[], rfl, by simp⟩, h.written⟩

end Clause

-- ---------------------------------------------------------------------------
-- The characters of a print
-- ---------------------------------------------------------------------------

theorem forall_mem_intercalate {α : Type} {P : α → Prop} {separator : List α}
    {pieces : List (List α)} (hs : ∀ x ∈ separator, P x) (h : ∀ piece ∈ pieces, ∀ x ∈ piece, P x) :
    ∀ x ∈ separator.intercalate pieces, P x := by
  induction pieces with
  | nil => simp
  | cons piece pieces ih =>
    obtain ⟨hpiece, hpieces⟩ := List.forall_mem_cons.1 h
    cases pieces with
    | nil => simpa using hpiece
    | cons next pieces =>
      rw [List.intercalate_cons_of_ne_nil (List.cons_ne_nil _ _)]
      exact List.forall_mem_append.2 ⟨List.forall_mem_append.2 ⟨hpiece, hs⟩, ih hpieces⟩

theorem SymbolChar.not_whiteSpace {c : Char} (h : SymbolChar c) : ¬ Text.isWhiteSpace c := by
  have hcode : 48 ≤ c.toNat ∧ c.toNat ≤ 122 := by
    simp only [SymbolChar, Char.le_def, UInt32.le_iff_toNat_le] at h
    rcases h with h | h | h | rfl
    · exact ⟨le_trans (by decide) h.1, h.2⟩
    · exact ⟨le_trans (by decide) h.1, le_trans h.2 (by decide)⟩
    · exact ⟨h.1, le_trans h.2 (by decide)⟩
    · decide
  simp only [Text.isWhiteSpace, Bool.or_eq_true, Bool.and_eq_true, decide_eq_true_eq, beq_iff_eq]
  omega

theorem SymbolChar.ne_lineFeed {c : Char} (h : SymbolChar c) : c ≠ '\n' := by
  rintro rfl
  exact h.not_whiteSpace rfl

theorem ArgumentChar.ne_lineFeed {c : Char} (h : ArgumentChar c) : c ≠ '\n' := by
  rintro rfl
  exact h.2.2.2 rfl

namespace Term

variable {t : Term}

theorem Textual.head?_render (h : t.Textual) :
    ∃ c, t.render.toList.head? = some c ∧ SymbolChar c := by
  cases hsymbol : t.symbol.toList with
  | nil => exact absurd (String.toList_eq_nil_iff.1 hsymbol) h.symbol_ne
  | cons c rest =>
    refine ⟨c, ?_, h.symbol c (hsymbol ▸ List.mem_cons_self)⟩
    rw [toList_render, hsymbol]
    rfl

theorem Textual.ne_lineFeed (h : t.Textual) : ∀ c ∈ t.render.toList, c ≠ '\n' := by
  have hnames : ∀ c ∈ [',', ' '].intercalate (t.arguments.map fun a => a.name.toList),
      c ≠ '\n' := by
    refine forall_mem_intercalate (by simp) fun piece hm c hc => ?_
    obtain ⟨a, ha, rfl⟩ := List.mem_map.1 hm
    exact ((h.arguments a ha).name c hc).ne_lineFeed
  rw [toList_render]
  refine List.forall_mem_append.2 ⟨fun c hc => (h.symbol c hc).ne_lineFeed, ?_⟩
  exact List.forall_mem_cons.2 ⟨by simp, List.forall_mem_append.2 ⟨hnames, by simp⟩⟩

end Term

namespace Clause

variable {clause : Clause}

theorem Textual.head?_render (h : clause.Textual) :
    ∃ c, clause.render.toList.head? = some c ∧ SymbolChar c := by
  cases clause with
  | fact t => exact Term.Textual.head?_render h
  | rule r =>
    obtain ⟨hhead, hne, -⟩ := h
    obtain ⟨c, hrender, hc⟩ := hhead.head?_render
    refine ⟨c, ?_, hc⟩
    rw [render, Rule.toList_render hne, List.append_assoc, List.head?_append, hrender]
    rfl

theorem Textual.ne_lineFeed (h : clause.Textual) : ∀ c ∈ clause.render.toList, c ≠ '\n' := by
  cases clause with
  | fact t => exact Term.Textual.ne_lineFeed h
  | rule r =>
    obtain ⟨hhead, hne, hbody⟩ := h
    have hgoals : ∀ c ∈ [',', ' '].intercalate (r.body.map fun goal => goal.render.toList),
        c ≠ '\n' := by
      refine forall_mem_intercalate (by simp) fun piece hm c hc => ?_
      obtain ⟨goal, hgoal, rfl⟩ := List.mem_map.1 hm
      exact (hbody goal hgoal).ne_lineFeed c hc
    rw [render, Rule.toList_render hne]
    simp only [List.forall_mem_append, List.forall_mem_cons]
    exact ⟨⟨hhead.ne_lineFeed, by simp⟩, by simp, by simp, by simp, hgoals⟩

end Clause

end Backchain
