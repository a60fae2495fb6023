import Kaleidoscope.Console
import Kaleidoscope.Proofs.Session.Splitting
import Mathlib.Data.List.Chain

/-!
# Dialogues and files

A dialogue runs what it has read as soon as a line visibly ends with a semicolon; a file is run as a
whole, and semicolons among its tokens end its statements. The same comes of both if every semicolon
that visibly ends a line ends a statement, and white space at the end of the text holds no token. A
comment that ends with a semicolon cuts a dialogue where it does not cut a file.
-/

namespace Kaleidoscope

/-- The last visible character of two texts is that of the second one, if there is one. -/
theorem Text.lastVisible?_append (p q : List Char) :
    lastVisible? (p ++ q) = (lastVisible? q).or (lastVisible? p) := by
  rw [lastVisible?, List.reverse_append, List.find?_append]
  rfl

/-- Only blanks have no visible character. -/
theorem Text.lastVisible?_eq_none {cs : List Char} : lastVisible? cs = none ↔ allBlank cs := by
  simp [lastVisible?, allBlank]

/-- Behind the last visible character there are blanks only. -/
theorem Text.lastVisible?_eq_some {cs : List Char} {c : Char} (h : lastVisible? cs = some c) :
    ∃ front blanks, cs = front ++ c :: blanks ∧ allBlank blanks := by
  obtain ⟨-, before, behind, heq, hblank⟩ := List.find?_eq_some_iff_append.1 h
  refine ⟨behind.reverse, before.reverse, ?_, ?_⟩
  · rw [← List.reverse_reverse cs, heq]
    simp
  · rw [allBlank, List.all_reverse, List.all_eq_true]
    exact fun d hd => by simpa using hblank d hd

namespace Lexer

/-- Blanks hold no token. -/
theorem scan_blanks {text : List Char} (h : ∀ c ∈ text, isBlank c) (offset : Nat) :
    scan offset text = [] := by
  induction text generalizing offset with
  | nil => exact scan_nil offset
  | cons c rest ih =>
    obtain ⟨hc, hrest⟩ := List.forall_mem_cons.1 h
    rw [scan_cons, piece, if_pos hc]
    exact ih hrest _

/-- A symbol is the character that stands for it. -/
theorem piece_eq_symbol {c d : Char} {rest cs : List Char}
    (h : piece c rest = .found (.symbol d) cs) : d = c := by
  unfold piece at h
  split at h
  · cases h
  · split at h
    · cases h
    · split at h
      · obtain ⟨hword, -⟩ := Piece.found.inj h
        unfold word at hword
        dsimp only at hword
        split at hword
        · cases hword
        · cases hword
      · split at h
        · obtain ⟨hnumeral, -⟩ := Piece.found.inj h
          unfold numeral at hnumeral
          split at hnumeral
          · cases hnumeral
          · cases hnumeral
        · cases h
          rfl

/-- A semicolon among the tokens stands in the text. -/
theorem mem_of_endsStatement {offset : Nat} {text : List Char} {lexeme : Lexeme}
    (hmem : lexeme ∈ scan offset text) (hends : lexeme.token.endsStatement) : ';' ∈ text := by
  fun_induction scan offset text with
  | case1 => cases hmem
  | case2 offset c rest found stop later cs hfound ih => exact List.mem_of_mem_drop (ih hmem)
  | case3 offset c rest found stop later token cs hfound ih =>
    rcases List.mem_cons.1 hmem with rfl | hmem
    · obtain rfl : token = .symbol ';' := of_decide_eq_true hends
      obtain rfl := piece_eq_symbol hfound
      exact List.mem_cons_self
    · exact List.mem_of_mem_drop (ih hmem)

/-- Nothing but white space holds no token, unless it ends otherwise than with a semicolon. -/
theorem scan_eq_nil {text : List Char} (hblank : Text.allBlank text) (hended : Ended (scan 0 text)) :
    scan 0 text = [] := by
  rcases List.eq_nil_or_concat' (scan 0 text) with hnil | ⟨before, last, hlast⟩
  · exact hnil
  · have hends : last.token.endsStatement := hended last (by rw [hlast]; simp)
    have hmem := mem_of_endsStatement (by rw [hlast]; simp) hends
    have hvisible : Text.isBlank ';' = false := by decide
    rw [List.all_eq_true.1 hblank _ hmem] at hvisible
    cases hvisible

end Lexer

namespace Console

/-- The lines of a text make up the text. -/
theorem flatten_lines (text : List Char) : (lines text).flatten = text := by
  induction text with
  | nil => rfl
  | cons c rest ih =>
    rw [lines]
    split
    · rw [List.flatten_cons, ih]
      rfl
    · split
      · rename_i hlines
        rw [hlines] at ih
        rw [← ih]
        rfl
      · rename_i line later hlines
        rw [hlines] at ih
        rw [← ih]
        rfl

/-- Every line but the last one ends with a newline. -/
theorem isChain_lines (text : List Char) :
    (lines text).IsChain fun line _ => ∃ front, line = front ++ ['\n'] := by
  induction text with
  | nil => exact .nil
  | cons c rest ih =>
    rw [lines]
    split
    · rename_i hc
      cases hlines : lines rest with
      | nil => exact .singleton _
      | cons line later =>
        rw [hlines] at ih
        exact List.isChain_cons_cons.2 ⟨⟨[], hc ▸ rfl⟩, ih⟩
    · split
      · exact .singleton _
      · rename_i line later hlines
        rw [hlines] at ih
        cases later with
        | nil => exact .singleton _
        | cons next later =>
          obtain ⟨⟨front, rfl⟩, hlater⟩ := List.isChain_cons_cons.1 ih
          exact List.isChain_cons_cons.2 ⟨⟨c :: front, rfl⟩, hlater⟩

/-- A line that is no last one ends with a newline, whatever stands in front of it. -/
theorem cut_of_isChain {line : List Char} {rest : List (List Char)}
    (h : (line :: rest).IsChain fun line _ => ∃ front, line = front ++ ['\n']) (buffer : List Char) :
    (rest ≠ [] → ∃ front, buffer ++ line = front ++ ['\n']) ∧
      rest.IsChain fun line _ => ∃ front, line = front ++ ['\n'] := by
  cases rest with
  | nil => exact ⟨fun hne => (hne rfl).elim, .nil⟩
  | cons next later =>
    obtain ⟨⟨front, rfl⟩, hlater⟩ := List.isChain_cons_cons.1 h
    exact ⟨fun _ => ⟨buffer ++ front, (List.append_assoc ..).symm⟩, hlater⟩

/-- What a dialogue does: it asks for a line, runs what it has read, or takes leave. -/
inductive Turn where
  | asked (prompt : String)
  | ran (buffer : List Char) (reports : List (Located Report))
  | left

/-- What the dialogue writes with it. -/
def Turn.writes : Turn → List Write
  | asked prompt => [.out prompt]
  | ran buffer reports => Console.writes buffer reports
  | left => [.out "\n"]

/-- What has been run. -/
def Turn.reports : Turn → List (Located Report)
  | ran _ reports => reports
  | _ => []

/-- The turns of a whole dialogue over the given lines. -/
def Dialogue.turns (d : Dialogue) (fuel : Nat) : List (List Char) → Option (List Turn)
  | [] =>
    if Text.allBlank d.buffer then some [.asked d.prompt, .left]
    else (d.session.run fuel (String.ofList d.buffer)).map fun (reports, _) =>
      [.asked d.prompt, .ran d.buffer reports, .left]
  | line :: rest =>
    let buffer := d.buffer ++ line
    if Text.lastVisible? buffer = some ';' then
      (d.session.run fuel (String.ofList buffer)).bind fun (reports, session) =>
        (turns ⟨session, []⟩ fuel rest).map fun later =>
          .asked d.prompt :: .ran buffer reports :: later
    else (turns ⟨d.session, buffer⟩ fuel rest).map (.asked d.prompt :: ·)

/-- A dialogue writes what its turns write. -/
theorem Dialogue.converse_eq (d : Dialogue) (fuel : Nat) (lines : List (List Char)) :
    d.converse fuel lines = (d.turns fuel lines).map (·.flatMap Turn.writes) := by
  induction lines generalizing d with
  | nil =>
    rw [converse, close, turns]
    split
    · rfl
    · rw [flush]
      cases d.session.run fuel (String.ofList d.buffer) with
      | none => rfl
      | some result => simp [Turn.writes]
  | cons line rest ih =>
    rw [converse, feed, turns]
    dsimp only
    split
    · rw [flush]
      dsimp only
      cases d.session.run fuel (String.ofList (d.buffer ++ line)) with
      | none => rfl
      | some result =>
        obtain ⟨reports, session⟩ := result
        cases hlater : turns ⟨session, []⟩ fuel rest with
        | none => simp [ih, hlater]
        | some later => simp [ih, hlater, Turn.writes]
    · cases hlater : turns ⟨d.session, d.buffer ++ line⟩ fuel rest with
      | none => simp [ih, hlater]
      | some later => simp [ih, hlater, Turn.writes]

/-- Semicolons that the eye finds at the end of a line are those that end a statement, from what
waits in the buffer on: behind each of them the last token is a semicolon, and likewise where
nothing else is visible at the end. -/
structure Settled (buffer : List Char) (lines : List (List Char)) : Prop where
  line : ∀ before line after, lines = before ++ line :: after →
    Text.lastVisible? line = some ';' →
    Ended (Lexer.scan 0 (buffer ++ before.flatten ++ line))
  last : (∀ c ∈ Text.lastVisible? (buffer ++ lines.flatten), c = ';') →
    Ended (Lexer.scan 0 (buffer ++ lines.flatten))

namespace Settled

variable {buffer line : List Char} {rest : List (List Char)}

/-- A line may be put into the buffer. -/
theorem keep (h : Settled buffer (line :: rest)) : Settled (buffer ++ line) rest where
  line before next after heq hvisible := by
    have := h.line (line :: before) next after (by rw [heq]; rfl) hvisible
    simpa using this
  last hvisible := by
    have := h.last (by simpa using hvisible)
    simpa using this

/-- The buffer may be emptied behind a line that visibly ends with a semicolon. -/
theorem flush (h : Settled buffer (line :: rest))
    (hline : rest ≠ [] → ∃ front, buffer ++ line = front ++ ['\n'])
    (hvisible : Text.lastVisible? (buffer ++ line) = some ';') : Settled [] rest where
  line before next after heq hnext := by
    have hended := h.line (line :: before) next after (by rw [heq]; rfl) hnext
    rw [List.flatten_cons, ← List.append_assoc, List.append_assoc] at hended
    exact Lexer.ended_of_append_line (fun _ => hline (by simp [heq])) hended
  last hlast := by
    have hended := h.last (by
      rw [List.flatten_cons, ← List.append_assoc, Text.lastVisible?_append, hvisible]
      intro c hc
      cases hrest : Text.lastVisible? rest.flatten with
      | none =>
        rw [hrest] at hc
        exact (Option.mem_some_iff.1 hc).symm
      | some d =>
        rw [hrest] at hc
        obtain rfl := Option.mem_some_iff.1 hc
        exact hlast d (Option.mem_def.2 hrest))
    rw [List.flatten_cons, ← List.append_assoc] at hended
    refine Lexer.ended_of_append_line (fun hne => hline ?_) hended
    rintro rfl
    exact hne rfl

end Settled

/-- A text without traps for the eye: all its white space is blank for the language too, and no
comment visibly ends with a semicolon. -/
structure Plain (text : List Char) : Prop where
  blank : ∀ c ∈ text, Text.isBlank c → Lexer.isBlank c
  comment : ∀ n < text.length, text[n]? = some ';' →
    ((text.drop (n + 1)).takeWhile (· ≠ '\n')).all Text.isBlank →
    Lexer.commentOpen false (text.take n) = false

/-- In a plain text a semicolon ends a statement if it is visibly the last of its line. -/
theorem Plain.ended {p blanks later : List Char} (h : Plain (p ++ ';' :: blanks ++ later))
    (hblanks : Text.allBlank blanks) (hline : later ≠ [] → '\n' ∈ blanks) :
    Ended (Lexer.scan 0 (p ++ ';' :: blanks)) := by
  have hblank : ∀ c ∈ blanks, Lexer.isBlank c := fun c hc =>
    h.blank c (by simp [hc]) (List.all_eq_true.1 hblanks c hc)
  have htakeWhile : (blanks ++ later).takeWhile (· ≠ '\n') = blanks.takeWhile (· ≠ '\n') := by
    by_cases hlater : later = []
    · rw [hlater, List.append_nil]
    · exact Lexer.takeWhile_append_of_mem (hline hlater) (by decide) later
  have hcomment : Lexer.commentOpen false p = false := by
    have hat := h.comment p.length (by simp) (by simp)
    have hdrop : (p ++ ';' :: blanks ++ later).drop (p.length + 1) = blanks ++ later := by simp
    have htake : (p ++ ';' :: blanks ++ later).take p.length = p := by simp
    rw [hdrop, htakeWhile, htake] at hat
    exact hat (List.all_eq_true.2 fun c hc =>
      List.all_eq_true.1 hblanks c (List.takeWhile_subset _ hc))
  rw [Lexer.scan_append_semicolon hcomment, Lexer.scan_blanks hblank]
  intro last hlast
  rw [List.map_nil, List.getLast?_concat, Option.mem_some_iff] at hlast
  subst hlast
  rfl

/-- In a plain text the semicolons that the eye finds at the end of a line are those that end a
statement. -/
theorem Plain.settled {text : List Char} (h : Plain text) : Settled [] (lines text) where
  line before line after heq hvisible := by
    have hlines := isChain_lines text
    rw [heq] at hlines
    obtain ⟨hline, -⟩ := cut_of_isChain hlines.right_of_append []
    obtain ⟨front, blanks, rfl, hblanks⟩ := Text.lastVisible?_eq_some hvisible
    have hsplit : before.flatten ++ front ++ ';' :: blanks ++ after.flatten = text := by
      rw [← flatten_lines text, heq]
      simp
    have hended := Plain.ended (hsplit ▸ h) hblanks fun hne => by
      obtain ⟨front', hfront⟩ := hline (by rintro rfl; exact hne rfl)
      have hlast := congrArg List.getLast? hfront
      rw [List.nil_append, List.getLast?_concat] at hlast
      rcases List.eq_nil_or_concat' blanks with rfl | ⟨more, c, rfl⟩
      · rw [List.getLast?_concat] at hlast
        cases hlast
      · rw [← List.cons_append, ← List.append_assoc, List.getLast?_concat] at hlast
        cases hlast
        exact List.mem_append_right _ (List.mem_singleton_self _)
    simpa using hended
  last hvisible := by
    rw [List.nil_append, flatten_lines] at hvisible ⊢
    cases hlast : Text.lastVisible? text with
    | none =>
      have hblank := List.all_eq_true.1 (Text.lastVisible?_eq_none.1 hlast)
      rw [Lexer.scan_blanks fun c hc => h.blank c hc (hblank c hc)]
      exact nofun
    | some c =>
      obtain rfl := hvisible c hlast
      obtain ⟨front, blanks, rfl, hblanks⟩ := Text.lastVisible?_eq_some hlast
      exact Plain.ended (by rwa [List.append_nil]) hblanks fun hne => (hne rfl).elim

/-- What the dialogue runs gives the same reports as running the whole rest of the text at once,
apart from their places. -/
theorem Dialogue.turns_eq_run {d : Dialogue} {lines : List (List Char)} (hsound : d.session.Sound)
    (hbuffer : Text.lastVisible? d.buffer ≠ some ';')
    (hlines : lines.IsChain fun line _ => ∃ front, line = front ++ ['\n'])
    (hsettled : Settled d.buffer lines) (fuel : Nat) :
    (d.turns fuel lines).map (fun turns => (turns.flatMap Turn.reports).map Located.value) =
      (d.session.run fuel (String.ofList (d.buffer ++ lines.flatten))).map fun (reports, _) =>
        reports.map Located.value := by
  induction lines generalizing d with
  | nil =>
    rw [turns, List.flatten_nil, List.append_nil]
    split
    · rename_i hblank
      have hended := hsettled.last
      rw [List.flatten_nil, List.append_nil, Text.lastVisible?_eq_none.2 hblank] at hended
      have hnone := Lexer.scan_eq_nil hblank (hended fun _ hc => (Option.not_mem_none _ hc).elim)
      rw [Session.run, Lexer.tokens, String.toList_ofList, hnone, Session.statements_nil]
      rfl
    · cases d.session.run fuel (String.ofList d.buffer) with
      | none => rfl
      | some result => simp [Turn.reports]
  | cons line rest ih =>
    obtain ⟨hline, hrest⟩ := cut_of_isChain hlines d.buffer
    rw [turns, List.flatten_cons, ← List.append_assoc]
    dsimp only
    split
    · rename_i hvisible
      have hend : Text.lastVisible? line = some ';' := by
        rw [Text.lastVisible?_append, Option.or_eq_some_iff] at hvisible
        exact hvisible.resolve_right fun h => hbuffer h.2
      have hended : Ended (Lexer.tokens (String.ofList (d.buffer ++ line))) := by
        rw [Lexer.tokens, String.toList_ofList]
        simpa using hsettled.line [] line rest rfl hend
      have htokens : Lexer.tokens (String.ofList (d.buffer ++ line) ++ String.ofList rest.flatten) = _ :=
        Lexer.tokens_append_line fun hne => hline fun hnil => hne (by rw [hnil]; rfl)
      have happend := hsound.run_append htokens hended fuel
      rw [← String.ofList_append] at happend
      rw [happend]
      cases hrun : d.session.run fuel (String.ofList (d.buffer ++ line)) with
      | none => rfl
      | some result =>
        obtain ⟨reports, mid⟩ := result
        have hmid : mid.Sound := hsound.statements (Lexer.namesAreWords_tokens _) hrun
        have hempty : Text.lastVisible? [] ≠ some ';' := by decide
        have hlater := @ih ⟨mid, []⟩ hmid hempty hrest (hsettled.flush hline hvisible)
        rw [List.nil_append] at hlater
        simp only [Option.bind_some, Option.map_map]
        cases hturns : turns ⟨mid, []⟩ fuel rest with
        | none =>
          rw [hturns, Option.map_none, eq_comm, Option.map_eq_none_iff] at hlater
          rw [hlater]
          rfl
        | some later =>
          rw [hturns, Option.map_some, eq_comm, Option.map_eq_some_iff] at hlater
          obtain ⟨⟨second, last⟩, hsecond, hvalues⟩ := hlater
          rw [hsecond]
          simp [Turn.reports, Report.join, ← hvalues, Located.shift]
    · rename_i hvisible
      rw [← @ih ⟨d.session, d.buffer ++ line⟩ hsound hvisible hrest hsettled.keep, Option.map_map]
      rfl

/-- What an observer of the reports learns: the outcomes and the messages of the diagnostics, in
order. -/
def observed (reports : List (Located Report)) : List Outcome × List String :=
  (Report.outcomes reports, (Report.diagnostics reports).map Diagnostic.message)

/-- The outcomes do not depend on places. -/
theorem outcomes_eq (reports : List (Located Report)) : Report.outcomes reports =
    (reports.map Located.value).filterMap fun report => report.result.toOption := by
  rw [Report.outcomes, List.filterMap_map]
  rfl

/-- The message about a statement, if it failed. -/
def message? (report : Report) : Option String :=
  match report.result with
  | .error e => some e.message
  | .ok _ => none

/-- The messages do not depend on places. -/
theorem messages_eq (reports : List (Located Report)) :
    (Report.diagnostics reports).map Diagnostic.message =
      (reports.map Located.value).filterMap message? := by
  rw [Report.diagnostics, List.map_filterMap, List.filterMap_map]
  refine List.filterMap_congr fun report _ => ?_
  rw [Function.comp, message?]
  cases report.value.result with
  | error e => rfl
  | ok outcome => rfl

/-- Places are not observed. -/
theorem observed_congr {reports reports' : List (Located Report)}
    (h : reports.map Located.value = reports'.map Located.value) :
    observed reports = observed reports' := by
  rw [observed, observed, outcomes_eq, outcomes_eq, messages_eq, messages_eq, h]

/-- Where the semicolons that visibly end lines are those that end statements, a dialogue over the
lines of a text achieves and reports the same as the text run as a file. -/
theorem Dialogue.observed_turns (options : Options) {text : String}
    (h : Settled [] (lines text.toList)) (fuel : Nat) :
    (start options).converse fuel (lines text.toList) =
        ((start options).turns fuel (lines text.toList)).map (·.flatMap Turn.writes) ∧
      ((start options).turns fuel (lines text.toList)).map
          (fun turns => observed (turns.flatMap Turn.reports)) =
        ((Console.session options).run fuel text).map fun (reports, _) => observed reports := by
  refine ⟨converse_eq _ _ _, ?_⟩
  have hsound : (start options).session.Sound := ⟨_, Compiler.consistent_start⟩
  have hvalues := turns_eq_run hsound nofun (isChain_lines text.toList) h fuel
  rw [start, List.nil_append, flatten_lines, String.ofList_toList] at hvalues
  change Option.map _ ((start options).turns fuel (lines text.toList)) =
    Option.map _ ((Console.session options).run fuel text) at hvalues
  cases hturns : (start options).turns fuel (lines text.toList) with
  | none =>
    rw [hturns, Option.map_none, eq_comm, Option.map_eq_none_iff] at hvalues
    rw [hvalues]
    rfl
  | some turns =>
    rw [hturns, Option.map_some, eq_comm, Option.map_eq_some_iff] at hvalues
    obtain ⟨⟨reports, last⟩, hrun, hvalues⟩ := hvalues
    rw [hrun]
    exact congrArg some (observed_congr hvalues.symm)

/-- A declaration over two lines, with a comment in between. -/
theorem declaration_observed :
    Settled [] (lines "extern # one; two\nf(x)\n;\n".toList) ∧
      ((Dialogue.start .standard).turns 0 (lines "extern # one; two\nf(x)\n;\n".toList)).map
          (fun turns => observed (turns.flatMap Turn.reports)) =
        ((Console.session .standard).run 0 "extern # one; two\nf(x)\n;\n").map
          fun (reports, _) => observed reports := by
  have hblank : ("extern # one; two\nf(x)\n;\n".toList.filter Text.isBlank).all Lexer.isBlank := by
    decide
  have hplain : Plain "extern # one; two\nf(x)\n;\n".toList :=
    ⟨fun c hc hc' => List.all_eq_true.1 hblank c (List.mem_filter.2 ⟨hc, hc'⟩), by decide⟩
  exact ⟨hplain.settled, (Dialogue.observed_turns .standard hplain.settled 0).2⟩

/-- A comment may end with a semicolon: a dialogue takes the line for a whole statement, a file does
not. -/
theorem comment_cuts_dialogue : ¬ ∀ (text : String) (fuel : Nat),
    ((Dialogue.start .standard).turns fuel (lines text.toList)).map
        (fun turns => observed (turns.flatMap Turn.reports)) =
      ((Console.session .standard).run fuel text).map fun (reports, _) => observed reports := by
  intro h
  -- As a file the text is a single declaration.
  have hfile : ((Console.session .standard).run 0 "extern # f;\nf();\n").map
      (fun (reports, _) => observed reports) = some ([.declared "f"], []) := by decide +kernel
  -- In a dialogue its first line is run alone, and rejected.
  have hdialogue : ((Dialogue.start .standard).turns 0 (lines "extern # f;\nf();\n".toList)).map
      (fun turns => observed (turns.flatMap Turn.reports)) =
        some ([], ["expected function name in prototype, found end of input",
          "unknown function `f`"]) := by decide +kernel
  have hsame := h "extern # f;\nf();\n" 0
  rw [hfile, hdialogue] at hsame
  cases hsame

end Console

end Kaleidoscope
