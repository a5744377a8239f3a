import Backchain.Proofs.Shell.Lines

/-!
# Listings

A shell shows the clauses that it holds, each on a line of its own with a period at the end. As all
of them came from texts, such a line starts with a symbol and has no line feed within: it is no
comment, no command and no query, and it is read as the clause that it shows. So a listing can be
loaded as a file, or typed again, and gives the same facts and rules in the same order.
-/

namespace Backchain

namespace Shell

-- ---------------------------------------------------------------------------
-- One line
-- ---------------------------------------------------------------------------

def clauseLine (clause : Clause) : String := clause.render ++ "."

section Line

variable {clause : Clause}

theorem toList_clauseLine (clause : Clause) :
    (clauseLine clause).toList = clause.render.toList ++ ['.'] := by
  simp [clauseLine]

theorem lineFeed_not_mem_clauseLine (h : clause.Textual) : '\n' ∉ (clauseLine clause).toList := by
  intro hm
  rw [toList_clauseLine] at hm
  rcases List.mem_append.1 hm with hm | hm
  · exact h.ne_lineFeed _ hm rfl
  · simp at hm

theorem head?_clauseLine (h : clause.Textual) :
    ∃ c, (clauseLine clause).toList.head? = some c ∧ SymbolChar c := by
  obtain ⟨c, hrender, hc⟩ := h.head?_render
  refine ⟨c, ?_, hc⟩
  rw [toList_clauseLine, List.head?_append, hrender]
  rfl

theorem getLast?_clauseLine (clause : Clause) :
    (clauseLine clause).toList.getLast? = some '.' := by
  rw [toList_clauseLine, List.getLast?_concat]

theorem trim_clauseLine (h : clause.Textual) :
    Text.trim (clauseLine clause) = clauseLine clause := by
  obtain ⟨c, hhead, hc⟩ := head?_clauseLine h
  have hstrip : Text.strip Text.isWhiteSpace (clauseLine clause).toList =
      (clauseLine clause).toList := by
    refine Text.strip_eq_iff.2 ⟨[], [], by simp, by simp, by simp, ?_, ?_⟩
    · intro d hd
      rw [hhead, Option.mem_some_iff] at hd
      exact hd ▸ hc.not_whiteSpace
    · intro d hd
      rw [getLast?_clauseLine, Option.mem_some_iff] at hd
      exact hd ▸ by decide
  rw [Text.trim, hstrip, String.ofList_toList]

theorem read_trim_clauseLine (h : clause.Textual) :
    Clause.read (Text.trim (clauseLine clause)) = .ok clause := by
  rw [trim_clauseLine h]
  exact Clause.read_render_period h

theorem clauseOn?_clauseLine (h : clause.Textual) : clauseOn? (clauseLine clause) = some clause :=
  clauseOn?_eq_some_iff.2 (read_trim_clauseLine h)

theorem ofLine_clauseLine (h : clause.Textual) :
    Command.ofLine (clauseLine clause) = .clause (clauseLine clause) := by
  rw [ofLine_of_read (read_trim_clauseLine h), trim_clauseLine h]

theorem tellText_clauseLine (h : clause.Textual) (reasoner : Reasoner) :
    reasoner.tellText (clauseLine clause) = .ok (clause, reasoner.tell clause) :=
  Reasoner.tellText_eq_ok_iff.2 ⟨Clause.read_render_period h, rfl⟩

end Line

-- ---------------------------------------------------------------------------
-- Many lines
-- ---------------------------------------------------------------------------

theorem loadLines_clauseLines {clauses : List Clause} (h : ∀ clause ∈ clauses, clause.Textual)
    (path : String) (reasoner : Reasoner) (number : Nat) :
    ∃ log, loadLines path reasoner number (clauses.map clauseLine) =
      ⟨reasoner.tellAll clauses, log, none⟩ := by
  have hloadable : ∀ line ∈ clauses.map clauseLine, Loadable line := by
    intro line hm
    obtain ⟨clause, hclause, rfl⟩ := List.mem_map.1 hm
    exact .inr (by simp [clauseOn?_clauseLine (h clause hclause)])
  have hclause : ∀ clause ∈ clauses, (clauseOn? ∘ clauseLine) clause = some clause := by
    intro clause hm
    rw [Function.comp_apply, clauseOn?_clauseLine (h clause hm)]
  obtain ⟨log, hload⟩ := loadLines_eq hloadable path reasoner number
  rw [List.filterMap_map, List.filterMap_congr hclause, List.filterMap_some] at hload
  exact ⟨log, hload⟩

theorem converse_clauseLines {clauses : List Clause} (h : ∀ clause ∈ clauses, clause.Textual)
    (json : Bool) (reasoner : Reasoner) :
    converse json reasoner
        (clauses.map fun clause => (clauseLine clause).toUTF8.data.toList) =
      ⟨clauses.map fun clause => ⟨[confirm clause], [.told clause]⟩,
        reasoner.tellAll clauses, .endOfInput⟩ := by
  induction clauses generalizing reasoner with
  | nil => rfl
  | cons clause clauses ih =>
    obtain ⟨hclause, hclauses⟩ := List.forall_mem_cons.1 h
    have hturn : takeTurn json reasoner (clauseLine clause).toUTF8.data.toList =
        ⟨⟨[confirm clause], [.told clause]⟩, (reasoner.tell clause).value, none⟩ := by
      simp only [takeTurn, Text.decode?_encoded, ofLine_clauseLine hclause, obey,
        tellText_clauseLine hclause]
      rfl
    simp only [List.map_cons, converse, hturn, ih hclauses]
    rfl

-- ---------------------------------------------------------------------------
-- Where the clauses of a shell come from
-- ---------------------------------------------------------------------------

section Told

open Reasoner (ToldByTexts)

theorem loadLines_told (path : String) (reasoner : Reasoner) (number : Nat) (lines : List String) :
    reasoner.ToldByTexts (loadLines path reasoner number lines).reasoner := by
  induction lines generalizing reasoner number with
  | nil => exact .refl reasoner
  | cons line lines ih =>
    rw [loadLines]
    split
    · exact ih reasoner (number + 1)
    · split
      · exact .refl reasoner
      · rename_i added htell
        exact (Reasoner.toldByTexts_of_tellText htell).trans (ih added.value (number + 1))

theorem Loading.andThen_told {reasoner : Reasoner} {loading : Loading} {next : Reasoner → Loading}
    (h : reasoner.ToldByTexts loading.reasoner)
    (hnext : ∀ r : Reasoner, r.ToldByTexts (next r).reasoner) :
    reasoner.ToldByTexts (loading.andThen next).reasoner := by
  unfold andThen
  split
  · exact h
  · exact h.trans (hnext _)

theorem loadFile_told (path : String) (content : Content) (reasoner : Reasoner) :
    reasoner.ToldByTexts (loadFile path content reasoner).reasoner := by
  unfold loadFile
  cases textOf content with
  | error cause => exact .refl reasoner
  | ok text => exact Loading.andThen_told (loadLines_told path reasoner 1 _) fun r => .refl r

theorem loadFiles_told (files : List (String × Content)) (reasoner : Reasoner) :
    reasoner.ToldByTexts (loadFiles files reasoner).reasoner := by
  induction files generalizing reasoner with
  | nil => exact .refl reasoner
  | cons file files ih => exact Loading.andThen_told (loadFile_told file.1 file.2 reasoner) ih

theorem obey_told (json : Bool) (reasoner : Reasoner) (command : Command) :
    reasoner.ToldByTexts (obey json reasoner command).2 := by
  cases command with
  | clause text =>
    rw [obey]
    split
    · exact .refl reasoner
    · exact Reasoner.toldByTexts_of_tellText ‹_›
  | _ => exact .refl reasoner

theorem takeTurn_told (json : Bool) (reasoner : Reasoner) (line : List UInt8) :
    reasoner.ToldByTexts (takeTurn json reasoner line).reasoner := by
  unfold takeTurn
  split
  · exact .refl reasoner
  · exact obey_told json reasoner _

theorem converse_told (json : Bool) (reasoner : Reasoner) (input : List (List UInt8)) :
    reasoner.ToldByTexts (converse json reasoner input).reasoner := by
  induction input generalizing reasoner with
  | nil => exact .refl reasoner
  | cons line input ih =>
    rw [converse]
    split
    · exact takeTurn_told json reasoner line
    · exact (takeTurn_told json reasoner line).trans (ih _)

theorem session_told (files : List (String × Content)) (settings : Settings) (json : Bool)
    (input : List (List UInt8)) :
    Reasoner.ToldByTexts { settings }
      (converse json (loadFiles files { settings }).reasoner input).reasoner :=
  (loadFiles_told files _).trans (converse_told json _ input)

end Told

-- ---------------------------------------------------------------------------
-- The listing
-- ---------------------------------------------------------------------------

def listing (json : Bool) (reasoner : Reasoner) : String :=
  (obey json reasoner .facts).1.text ++ (obey json reasoner .rules).1.text

theorem toList_listing (json : Bool) (reasoner : Reasoner) :
    (listing json reasoner).toList =
      (reasoner.knowledge.clauses.map fun clause => (clauseLine clause).toList).flatMap
        (· ++ ['\n']) := by
  simp [listing, obey, Reply.text, KnowledgeBase.clauses, clauseLine, Clause.render,
    Reasoner.facts, Reasoner.rules, List.flatMap_map]

section Listing

variable {reasoner : Reasoner} (h : ∀ clause ∈ reasoner.knowledge.clauses, clause.Textual)
include h

theorem lines_listing (json : Bool) :
    (Text.lines '\n' (listing json reasoner).toList).map String.ofList =
      reasoner.knowledge.clauses.map clauseLine := by
  have hchars : ∀ line ∈ reasoner.knowledge.clauses.map fun clause => (clauseLine clause).toList,
      '\n' ∉ line := by
    intro line hm
    obtain ⟨clause, hclause, rfl⟩ := List.mem_map.1 hm
    exact lineFeed_not_mem_clauseLine (h clause hclause)
  rw [toList_listing, Text.lines_flatMap hchars, List.map_map]
  simp [Function.comp_def]

theorem lines_bytes_listing (json : Bool) :
    Text.lines 10 (listing json reasoner).toUTF8.data.toList =
      reasoner.knowledge.clauses.map fun clause => (clauseLine clause).toUTF8.data.toList := by
  have hlines := congrArg (List.map fun line => line.toUTF8.data.toList) (lines_listing h json)
  rw [Text.lines_toUTF8]
  simpa only [List.map_map, Function.comp_def] using hlines

theorem loadFile_listing (settings : Settings) (json : Bool) (path : String) :
    ∃ log, loadFile path (.ok (listing json reasoner).toUTF8.data.toList) { settings } =
      ⟨⟨reasoner.knowledge, settings⟩, log, none⟩ := by
  obtain ⟨log, hload⟩ := loadLines_clauseLines h path { settings } 1
  rw [Reasoner.tellAll, KnowledgeBase.addAll_clauses] at hload
  simp only [loadFile, textOf_encoded, loadText, lines_listing h, hload]
  exact ⟨_, rfl⟩

theorem converse_listing (settings : Settings) (json freshJson : Bool) :
    converse freshJson { settings } (Text.lines 10 (listing json reasoner).toUTF8.data.toList) =
      ⟨reasoner.knowledge.clauses.map fun clause => ⟨[confirm clause], [.told clause]⟩,
        ⟨reasoner.knowledge, settings⟩, .endOfInput⟩ := by
  rw [lines_bytes_listing h, converse_clauseLines h, Reasoner.tellAll, KnowledgeBase.addAll_clauses]

end Listing

/-- What a reasoner lists that was told clauses by texts only, in a shell or otherwise, can be
loaded as a file and can be typed: every line is taken as a clause and added, and the facts and the
rules are the same in the end, in the same order. -/
theorem listing_reloads {settings : Settings} {reasoner : Reasoner}
    (htold : Reasoner.ToldByTexts { settings } reasoner) (fresh : Settings) (json freshJson : Bool)
    (path : String) :
    let bytes := (listing json reasoner).toUTF8.data.toList
    let loading := loadFile path (.ok bytes) { settings := fresh }
    let dialogue := converse freshJson { settings := fresh } (Text.lines 10 bytes)
    (Text.lines '\n' (listing json reasoner).toList).map String.ofList =
        reasoner.facts.map (fun f => f.render ++ ".") ++
          reasoner.rules.map (fun r => r.render ++ ".") ∧
      (loading.failure = none ∧ loading.reasoner.facts = reasoner.facts ∧
        loading.reasoner.rules = reasoner.rules) ∧
      (∀ line ∈ Text.lines 10 bytes,
        ∃ text, Text.decode? line = some text ∧ Command.ofLine text = .clause text) ∧
      dialogue.replies.map Reply.lines =
        reasoner.facts.map (fun f => [confirm (.fact f)]) ++
          reasoner.rules.map (fun r => [confirm (.rule r)]) ∧
      dialogue.ending = .endOfInput ∧ dialogue.reasoner.facts = reasoner.facts ∧
        dialogue.reasoner.rules = reasoner.rules := by
  intro bytes loading dialogue
  have htextual : ∀ clause ∈ reasoner.knowledge.clauses, clause.Textual :=
    fun clause => htold.textual_of_mem_clauses
  have hdialogue : dialogue = _ := converse_listing htextual fresh json freshJson
  refine ⟨?_, ?_, ?_, ?_⟩
  · rw [lines_listing htextual, KnowledgeBase.clauses, List.map_append, List.map_map, List.map_map]
    rfl
  · obtain ⟨log, hload⟩ := loadFile_listing htextual fresh json path
    rw [show loading = _ from hload]
    exact ⟨rfl, rfl, rfl⟩
  · intro line hm
    rw [lines_bytes_listing htextual] at hm
    obtain ⟨clause, hclause, rfl⟩ := List.mem_map.1 hm
    exact ⟨_, Text.decode?_encoded _, ofLine_clauseLine (htextual clause hclause)⟩
  · rw [hdialogue]
    refine ⟨?_, rfl, rfl, rfl⟩
    simp only [KnowledgeBase.clauses, List.map_append, List.map_map]
    rfl

theorem listing_reloads_of_session :
    let file := "% pets\n\n cat( Tom ).\ncat(%7%)\r\n".toUTF8.data.toList
    let input := Text.lines 10 "owns(ana,X):-cat(X) . \ncat(\nfacts".toUTF8.data.toList
    let reasoner := (converse false (loadFiles [("pets", .ok file)] {}).reasoner input).reasoner
    let bytes := (listing false reasoner).toUTF8.data.toList
    let loading := loadFile "saved" (.ok bytes) {}
    let dialogue := converse true {} (Text.lines 10 bytes)
    Reasoner.ToldByTexts {} reasoner ∧ reasoner.knowledge.clauses.length = 3 ∧
      (loading.failure = none ∧ loading.reasoner.facts = reasoner.facts ∧
        loading.reasoner.rules = reasoner.rules) ∧
      dialogue.reasoner.facts = reasoner.facts ∧ dialogue.reasoner.rules = reasoner.rules := by
  intro file input reasoner bytes loading dialogue
  have htold : Reasoner.ToldByTexts {} reasoner := session_told [("pets", .ok file)] {} false input
  obtain ⟨-, hloading, -, -, -, hdialogue⟩ := listing_reloads htold {} false true "saved"
  exact ⟨htold, by decide +kernel, hloading, hdialogue⟩

end Shell

end Backchain
