import Kaleidoscope.Proofs.Number.Rounding
import Kaleidoscope.Proofs.Ssa.WellFormed
import Kaleidoscope.Proofs.Text.Runs
import Kaleidoscope.Proofs.Token.Words
import Kaleidoscope.Ssa.Listing

/-!
# The text of an instruction tells which one it is

Values and blocks are shown as runs of letters and digits, so they end where another character
comes. A parameter is shown by a name that other parameters may have too. But a parameter is used
only to be stored in its own slot, and there the number of the slot tells which one it is.
-/

namespace Kaleidoscope.Ssa

open Lexer (IsWord)

/-- What follows ends a run of letters and digits. -/
def Cut (rest : List Char) : Prop := ∀ c ∈ rest.head?, ¬ c.isAlphanum = true

/-- A run ends where the text does. -/
theorem cut_nil : Cut [] := nofun

/-- A run ends before a character that is neither a letter nor a digit. -/
theorem cut_cons {c : Char} (h : c.isAlphanum = false) (rest : List Char) : Cut (c :: rest) := by
  rintro _ ⟨⟩
  rw [h]
  nofun

/-- A run ends before a text that begins with neither a letter nor a digit. -/
theorem cut_append {lead : String} (h : lead.toList.head?.any (!·.isAlphanum)) (rest : String) :
    Cut (lead ++ rest).toList := by
  cases hlead : lead.toList with
  | nil => rw [hlead] at h; cases h
  | cons c cs =>
    rw [hlead] at h
    rw [String.toList_append, hlead]
    exact cut_cons (by simpa using h) _

/-- A word ends at the first blank. -/
theorem word_unique {word word' rest rest' : String} (h : ' ' ∉ word.toList) (h' : ' ' ∉ word'.toList)
    (heq : word ++ (" " ++ rest) = word' ++ (" " ++ rest')) : word = word' ∧ rest = rest' := by
  have hlist := congrArg String.toList heq
  rw [String.toList_append, @String.toList_append word', String.toList_append,
    String.toList_append] at hlist
  exact (segment_unique h h' hlist).imp String.toList_inj.1 String.toList_inj.1

/-- The name can be told from what follows when it stands before an opening parenthesis. -/
structure IsCallee (name : String) : Prop where
  parenthesis : '(' ∉ name.toList.dropLast
  newline : '\n' ∉ name.toList

/-- The operands are no parameters. -/
def Operation.Numbered (arity : Nat) : Operation → Prop
  | constant _ | load _ => True
  | arithmetic _ left right | compare _ left right => arity ≤ left.index ∧ arity ≤ right.index
  | widen value => arity ≤ value.index
  | phi incoming => ∀ value ∈ incoming.map Prod.fst, arity ≤ value.index

/-- The operands are no parameters, unless a parameter is stored in its own slot. -/
def Instruction.Numbered (arity : Nat) : Instruction → Prop
  | assign _ operation => operation.Numbered arity
  | store slot value => arity ≤ value.index ∨ value.index = slot.index
  | call _ callee arguments => IsCallee callee ∧ ∀ value ∈ arguments, arity ≤ value.index

/-- A name before an opening parenthesis ends there, if no other one follows. -/
theorem IsCallee.unique {name name' rest rest' : String} (h : IsCallee name) (h' : IsCallee name')
    (hrest : rest.toList.head? ≠ some '(') (hrest' : rest'.toList.head? ≠ some '(')
    (heq : name ++ ("(" ++ rest) = name' ++ ("(" ++ rest')) : name = name' ∧ rest = rest' := by
  -- If one name went on where the other one ends, there would be a parenthesis within it.
  have hshort {a b more r r' : List Char} (hb : '(' ∉ b.dropLast) (hr : r.head? ≠ some '(')
      (hmore : b = a ++ more) (hrest : '(' :: r = more ++ '(' :: r') : a = b ∧ r = r' := by
    cases more with
    | nil => exact ⟨by rw [hmore, List.append_nil], (List.cons.inj hrest).2⟩
    | cons c more =>
      obtain ⟨rfl, hbehind⟩ := List.cons.inj hrest
      cases more with
      | nil => exact (hr (by rw [hbehind]; rfl)).elim
      | cons d more =>
        refine (hb ?_).elim
        rw [hmore, List.dropLast_append_of_ne_nil (List.cons_ne_nil _ _), List.dropLast_cons_cons]
        exact List.mem_append_right _ List.mem_cons_self
  have hlist := congrArg String.toList heq
  rw [String.toList_append, @String.toList_append name'] at hlist
  rcases List.append_eq_append_iff.1 hlist with ⟨more, hmore, hbehind⟩ | ⟨more, hmore, hbehind⟩
  · obtain ⟨hname, hsame⟩ := hshort h'.parenthesis hrest hmore (by simpa using hbehind)
    exact ⟨String.toList_inj.1 hname, String.toList_inj.1 hsame⟩
  · obtain ⟨hname, hsame⟩ := hshort h.parenthesis hrest' hmore (by simpa using hbehind)
    exact ⟨String.toList_inj.1 hname.symm, String.toList_inj.1 hsame.symm⟩

/-- A slot is known by its number. -/
theorem SlotId.eq_of_repr_eq {slot slot' : SlotId} (h : slot.index.repr = slot'.index.repr) :
    slot = slot' := by
  cases slot
  cases slot'
  exact congrArg SlotId.mk (Kaleidoscope.eq_of_repr_eq h)

/-- An arithmetic operation can be told from its name. -/
theorem Arithmetic.mnemonic_inj (op : Arithmetic) {op' : Arithmetic} (h : op.mnemonic = op'.mnemonic) :
    op = op' := by
  cases op <;> cases op' <;> first | rfl | exact absurd h (by decide)

/-- A comparison can be told from its name. -/
theorem Comparison.mnemonic_inj (op : Comparison) {op' : Comparison} (h : op.mnemonic = op'.mnemonic) :
    op = op' := by
  cases op <;> cases op' <;> first | rfl | exact absurd h (by decide)

/-- There is no blank in the name of a comparison. -/
theorem Comparison.blank_notMem_mnemonic (op : Comparison) : ' ' ∉ op.mnemonic.toList := by
  cases op <;> decide

namespace Naming

variable {names : Naming} {v w : ValueId} {b c : BlockId} {r r' : List Char}

/-- Parameters and labels are words, and no two blocks have the same label. -/
structure Proper (names : Naming) : Prop where
  parameters : ∀ name ∈ names.parameters, IsWord name
  labels : ∀ label ∈ names.labels, IsWord label
  nodup : names.labels.Nodup

/-- A parameter is shown by its name. -/
theorem toList_value_parameter {name : String} (h : names.parameters[v.index]? = some name) :
    (names.value v).toList = '%' :: name.toList := by
  simp [value, h, toString]

/-- A value that is no parameter is shown by its number. -/
theorem value_number (h : names.parameters.length ≤ v.index) :
    names.value v = "%" ++ v.index.repr := by
  simp [value, List.getElem?_eq_none h, toString]

/-- The number of a value is shown by its digits. -/
theorem toList_value_number (h : names.parameters.length ≤ v.index) :
    (names.value v).toList = '%' :: Nat.toDigits 10 v.index := by
  rw [value_number h, String.toList_append, Nat.toList_repr]
  rfl

/-- A value is shown as a run of letters and digits. -/
theorem Proper.exists_run (h : names.Proper) (v : ValueId) :
    ∃ run, (names.value v).toList = '%' :: run ∧ ∀ c ∈ run, c.isAlphanum = true := by
  cases hname : names.parameters[v.index]? with
  | some name =>
    exact ⟨_, toList_value_parameter hname, (h.parameters name (List.mem_of_getElem? hname)).isAlphanum⟩
  | none =>
    refine ⟨_, toList_value_number (List.getElem?_eq_none_iff.1 hname), fun c hc => ?_⟩
    rw [Char.isAlphanum, Number.Decimal.isDigit_toDigits hc, Bool.or_true]

/-- The text of a value ends where it is cut. -/
theorem Proper.value_unique (h : names.Proper) {rest rest' : String} (hrest : Cut rest.toList)
    (hrest' : Cut rest'.toList) (heq : names.value v ++ rest = names.value w ++ rest') :
    names.value v = names.value w ∧ rest = rest' := by
  obtain ⟨run, hv, hrun⟩ := h.exists_run v
  obtain ⟨run', hw, hrun'⟩ := h.exists_run w
  have hlist := congrArg String.toList heq
  rw [String.toList_append, String.toList_append, hv, hw] at hlist
  obtain ⟨rfl, hbehind⟩ := run_unique hrun hrun' hrest hrest' (List.cons.inj hlist).2
  exact ⟨String.toList_inj.1 (hv.trans hw.symm), String.toList_inj.1 hbehind⟩

/-- A value that is shown by number can be told from all others. -/
theorem Proper.value_inj (h : names.Proper) (hv : names.parameters.length ≤ v.index)
    (heq : names.value v = names.value w) : v = w := by
  cases hname : names.parameters[w.index]? with
  | some name =>
    -- A number begins with a digit and a name with a letter.
    have hlist := congrArg String.toList heq
    rw [toList_value_number hv, toList_value_parameter hname] at hlist
    obtain ⟨first, rest, hfirst, halpha, -⟩ := h.parameters name (List.mem_of_getElem? hname)
    have hdigit : first ∈ Nat.toDigits 10 v.index := by
      rw [(List.cons.inj hlist).2, hfirst]
      exact List.mem_cons_self
    rw [Lexer.isAlpha_of_isDigit (Number.Decimal.isDigit_toDigits hdigit)] at halpha
    cases halpha
  | none =>
    rw [value_number hv, value_number (List.getElem?_eq_none_iff.1 hname), String.append_right_inj] at heq
    cases v
    cases w
    exact congrArg ValueId.mk (eq_of_repr_eq heq)

/-- A block is shown by its label. -/
theorem toList_block {label : String} (h : names.labels[b.index]? = some label) :
    (names.block b).toList = '%' :: label.toList := by
  simp [block, h, toString]

/-- The text of a block ends where it is cut, and tells which block it is. -/
theorem Proper.block_unique (h : names.Proper) (hb : b.index < names.labels.length)
    (hc : c.index < names.labels.length) {rest rest' : String} (hrest : Cut rest.toList)
    (hrest' : Cut rest'.toList) (heq : names.block b ++ rest = names.block c ++ rest') :
    b = c ∧ rest = rest' := by
  have hlabel {b : BlockId} (hb : b.index < names.labels.length) := List.getElem?_eq_getElem hb
  have hlist := congrArg String.toList heq
  rw [String.toList_append, String.toList_append, toList_block (hlabel hb), toList_block (hlabel hc)]
    at hlist
  obtain ⟨hsame, hbehind⟩ := run_unique (h.labels _ (List.getElem_mem hb)).isAlphanum
    (h.labels _ (List.getElem_mem hc)).isAlphanum hrest hrest' (List.cons.inj hlist).2
  have hindex := (List.Nodup.getElem_inj_iff h.nodup).1 (String.toList_inj.1 hsame)
  cases b
  cases c
  exact ⟨congrArg BlockId.mk hindex, String.toList_inj.1 hbehind⟩

/-- Behind a list there is nothing, or a closing parenthesis. -/
def Closed (rest : List Char) : Prop := ∀ c ∈ rest.head?, c = ')'

/-- A list may end where the text does. -/
theorem closed_nil : Closed [] := nofun

/-- A run ends where a list does. -/
theorem Closed.cut (h : Closed r) : Cut r := by
  intro c hc
  rw [h c hc]
  decide

section Separated

variable {α : Type} {write : α → String} {S : α → Prop}

/-- There is a comma with a blank before each element but the first one. -/
theorem toList_separated (write : α → String) (a : α) (as : List α) :
    (", ".intercalate ((a :: as).map write)).toList =
      (write a).toList ++ as.flatMap fun a => ',' :: ' ' :: (write a).toList := by
  induction as generalizing a with
  | nil => simp
  | cons b as ih =>
    rw [List.map_cons, List.map_cons, String.intercalate_cons_cons, String.toList_append,
      String.toList_append, ← List.map_cons, ih]
    simp

/-- Behind the first part of a list a run of letters and digits has come to its end. -/
theorem cut_separated (as : List α) (hr : Closed r) :
    Cut ((as.flatMap fun a => ',' :: ' ' :: (write a).toList) ++ r) := by
  cases as with
  | nil => exact hr.cut
  | cons => exact cut_cons rfl _

/-- Behind a comma comes another part of a list. -/
theorem framed_separated :
    Framed (fun a => ',' :: ' ' :: (write a).toList) (fun _ => True) Cut Closed where
  begins _ _ hend := by cases hend ',' rfl
  fits _ _ hend := cut_separated _ hend

/-- A list whose parts can be told apart can be told from others. -/
theorem separated_unique (hapart : ∀ a, S a → Apart (fun a => (write a).toList) S Cut a)
    (hbegin : ∀ a r, ¬ Closed ((write a).toList ++ r)) {as bs : List α} (has : ∀ a ∈ as, S a)
    (hbs : ∀ b ∈ bs, S b) (hr : Closed r) (hr' : Closed r')
    (h : (", ".intercalate (as.map write)).toList ++ r =
      (", ".intercalate (bs.map write)).toList ++ r') : as = bs ∧ r = r' := by
  cases as with
  | nil =>
    cases bs with
    | nil => exact ⟨rfl, h⟩
    | cons b bs =>
      rw [toList_separated, List.append_assoc] at h
      change r = _ at h
      exact (hbegin b _ (h ▸ hr)).elim
  | cons a as =>
    obtain ⟨ha, has⟩ := List.forall_mem_cons.1 has
    rw [toList_separated, List.append_assoc] at h
    cases bs with
    | nil =>
      change _ = r' at h
      exact (hbegin a _ (h ▸ hr')).elim
    | cons b bs =>
      obtain ⟨hb, hmore⟩ := List.forall_mem_cons.1 hbs
      rw [toList_separated, List.append_assoc] at h
      obtain ⟨rfl, hbehind⟩ := hapart a ha hb (cut_separated as hr) (cut_separated bs hr') h
      have hlater : ∀ a ∈ as, Apart (fun a => ',' :: ' ' :: (write a).toList) S Cut a := by
        intro a hmem b r r' hb hr hr' heq
        exact hapart a (has a hmem) hb hr hr' (List.cons.inj (List.cons.inj heq).2).2
      have hparts := framed_separated.unique (fun _ _ => trivial) hlater (fun _ _ => trivial) hmore
        hr hr' hbehind
      exact ⟨congrArg _ hparts.1, hparts.2⟩

/-- A list of numbers in parentheses does not begin with another opening one. -/
theorem head?_separated_ne {as : List α} {rest : String}
    (hwrite : ∀ a, ∃ text, write a = "double " ++ text) (hrest : rest.toList.head? = some ')') :
    (", ".intercalate (as.map write) ++ rest).toList.head? ≠ some '(' := by
  rw [String.toList_append]
  cases as with
  | nil =>
    change rest.toList.head? ≠ _
    rw [hrest]
    decide
  | cons a as =>
    obtain ⟨text, htext⟩ := hwrite a
    rw [toList_separated, htext, String.toList_append]
    simp

/-- Texts that can be told apart are lists of characters that can be. -/
theorem apart_of_text {a : α} (h : ∀ {b : α} {rest rest' : String}, S b → Cut rest.toList →
    Cut rest'.toList → write a ++ rest = write b ++ rest' → a = b ∧ rest = rest') :
    Apart (fun a => (write a).toList) S Cut a := by
  intro b r r' hb hr hr' heq
  have htext : write a ++ String.ofList r = write b ++ String.ofList r' :=
    String.toList_inj.1 (by simpa using heq)
  rw [← @String.toList_ofList r] at hr
  rw [← @String.toList_ofList r'] at hr'
  exact (h hb hr hr' htext).imp_right String.ofList_inj.1

end Separated

/-- The text of two values tells which ones they are. -/
theorem Proper.pair_inj (h : names.Proper) {v' w' : ValueId} (hv : names.parameters.length ≤ v.index)
    (hw : names.parameters.length ≤ w.index)
    (heq : names.value v ++ (", " ++ names.value w) = names.value v' ++ (", " ++ names.value w')) :
    v = v' ∧ w = w' := by
  obtain ⟨hfirst, hbehind⟩ := h.value_unique (cut_append rfl _) (cut_append rfl _) heq
  exact ⟨h.value_inj hv hfirst, h.value_inj hw ((String.append_right_inj _).1 hbehind)⟩

/-- The value and the block can be told from the text of an alternative. -/
def Chosen (names : Naming) (incoming : ValueId × BlockId) : Prop :=
  names.parameters.length ≤ incoming.1.index ∧ incoming.2.index < names.labels.length

/-- An alternative is shown by its value and its block. -/
theorem alternative_eq (names : Naming) (incoming : ValueId × BlockId) : names.alternative incoming =
    "[ " ++ (names.value incoming.1 ++ (", " ++ (names.block incoming.2 ++ " ]"))) := by
  rw [← String.toList_inj]
  simp [alternative, toString]

/-- A list does not end before an alternative. -/
theorem not_closed_alternative (names : Naming) (incoming : ValueId × BlockId) (r : List Char) :
    ¬ Closed ((names.alternative incoming).toList ++ r) := by
  rw [alternative_eq, String.toList_append]
  exact fun hclosed => absurd (hclosed '[' rfl) (by decide)

/-- An alternative can be told from its text, which no other letter or digit follows. -/
theorem Proper.apart_alternative (h : names.Proper) {incoming : ValueId × BlockId}
    (hincoming : names.Chosen incoming) :
    Apart (fun incoming => (names.alternative incoming).toList) names.Chosen Cut incoming := by
  refine apart_of_text fun {incoming' rest rest'} hincoming' hrest hrest' heq => ?_
  simp only [alternative_eq, String.append_assoc, String.append_right_inj] at heq
  obtain ⟨hv, hbehind⟩ := h.value_unique (cut_append rfl _) (cut_append rfl _) heq
  obtain ⟨hb, hclosed⟩ := h.block_unique hincoming.2 hincoming'.2 (cut_append rfl _) (cut_append rfl _)
    ((String.append_right_inj _).1 hbehind)
  exact ⟨Prod.ext (h.value_inj hincoming.1 hv) hb, (String.append_right_inj _).1 hclosed⟩

/-- The first word of an operation. -/
def opcode : Operation → String
  | .constant _ => "const"
  | .arithmetic op _ _ => op.mnemonic
  | .compare .. => "fcmp"
  | .widen _ => "uitofp"
  | .load _ => "load"
  | .phi _ => "phi"

/-- What stands behind the first word of an operation. -/
def operands (names : Naming) : Operation → String
  | .constant x => "double " ++ Number.text x
  | .arithmetic _ left right => "double " ++ (names.value left ++ (", " ++ names.value right))
  | .compare op left right =>
    op.mnemonic ++ (" " ++ ("double " ++ (names.value left ++ (", " ++ names.value right))))
  | .widen v => "i1 " ++ (names.value v ++ " to double")
  | .load slot => "double, $" ++ slot.index.repr
  | .phi incoming => "double " ++ ", ".intercalate (incoming.map names.alternative)

/-- An operation is shown by its first word and its operands. -/
theorem operation_eq (names : Naming) (op : Operation) :
    names.operation op = opcode op ++ (" " ++ names.operands op) := by
  rw [← String.toList_inj]
  cases op <;> simp [operation, opcode, operands, toString]

/-- There is no blank in the first word of an operation. -/
theorem blank_notMem_opcode (op : Operation) : ' ' ∉ (opcode op).toList := by
  cases op with
  | arithmetic op => cases op <;> rw [opcode, Arithmetic.mnemonic] <;> decide
  | _ => rw [opcode]; decide

/-- The first word of an operation tells how it is made. -/
theorem ctorIdx_eq_of_opcode_eq {op op' : Operation} (h : opcode op = opcode op') :
    op.ctorIdx = op'.ctorIdx := by
  have hindex (op : Operation) : op.ctorIdx =
      if opcode op = "const" then 0 else if opcode op = "fcmp" then 2
      else if opcode op = "uitofp" then 3 else if opcode op = "load" then 4
      else if opcode op = "phi" then 5 else 1 := by
    cases op with
    | arithmetic op => cases op <;> rfl
    | _ => rfl
  rw [hindex op, hindex op', h]

/-- The blocks that a phi refers to are there. -/
def Joined (names : Naming) : Operation → Prop
  | .phi incoming => ∀ block ∈ incoming.map Prod.snd, block.index < names.labels.length
  | _ => True

/-- The text of an operation tells which one it is. -/
theorem Proper.operation_inj (h : names.Proper) {op op' : Operation}
    (hop : op.Numbered names.parameters.length) (hjoined : names.Joined op)
    (hop' : op'.Numbered names.parameters.length) (hjoined' : names.Joined op')
    (heq : names.operation op = names.operation op') : op = op' := by
  rw [operation_eq, operation_eq] at heq
  obtain ⟨hcode, hrest⟩ := word_unique (blank_notMem_opcode op) (blank_notMem_opcode op') heq
  have hindex := ctorIdx_eq_of_opcode_eq hcode
  cases op with
  | constant x =>
    cases op' with
    | constant y => rw [Number.eq_of_text_eq ((String.append_right_inj _).1 hrest)]
    | _ => cases hindex
  | arithmetic op left right =>
    cases op' with
    | arithmetic op' left' right' =>
      obtain ⟨rfl, rfl⟩ := h.pair_inj hop.1 hop.2 ((String.append_right_inj _).1 hrest)
      obtain rfl := op.mnemonic_inj hcode
      rfl
    | _ => cases hindex
  | compare op left right =>
    cases op' with
    | compare op' left' right' =>
      obtain ⟨hmnemonic, hpair⟩ := word_unique op.blank_notMem_mnemonic op'.blank_notMem_mnemonic hrest
      obtain ⟨rfl, rfl⟩ := h.pair_inj hop.1 hop.2 ((String.append_right_inj _).1 hpair)
      obtain rfl := op.mnemonic_inj hmnemonic
      rfl
    | _ => cases hindex
  | widen v =>
    cases op' with
    | widen v' =>
      rw [operands, operands, String.append_right_inj, String.append_left_inj] at hrest
      rw [h.value_inj hop hrest]
    | _ => cases hindex
  | load slot =>
    cases op' with
    | load slot' =>
      rw [operands, operands, String.append_right_inj] at hrest
      rw [SlotId.eq_of_repr_eq hrest]
    | _ => cases hindex
  | phi incoming =>
    cases op' with
    | phi incoming' =>
      rw [operands, operands, String.append_right_inj] at hrest
      have hchosen {incoming : List (ValueId × BlockId)}
          (hop : (Operation.phi incoming).Numbered names.parameters.length)
          (hjoined : names.Joined (.phi incoming)) : ∀ entry ∈ incoming, names.Chosen entry :=
        fun entry hentry => ⟨hop _ (List.mem_map_of_mem hentry), hjoined _ (List.mem_map_of_mem hentry)⟩
      obtain ⟨rfl, -⟩ := separated_unique (fun _ => h.apart_alternative) names.not_closed_alternative
        (hchosen hop hjoined) (hchosen hop' hjoined') closed_nil closed_nil
        (congrArg (fun text => text.toList ++ []) hrest)
      rfl
    | _ => cases hindex

/-- The text of an argument. -/
def argument (names : Naming) (v : ValueId) : String := "double " ++ names.value v

/-- Arguments are shown with commas between them. -/
theorem arguments_eq (names : Naming) (values : List ValueId) :
    names.arguments values = ", ".intercalate (values.map names.argument) := by
  simp only [arguments, toString]
  rfl

/-- The value is no parameter. -/
def Counts (names : Naming) (v : ValueId) : Prop := names.parameters.length ≤ v.index

/-- A list does not end before an argument. -/
theorem not_closed_argument (names : Naming) (v : ValueId) (r : List Char) :
    ¬ Closed ((names.argument v).toList ++ r) := by
  rw [argument, String.toList_append]
  exact fun hclosed => absurd (hclosed 'd' rfl) (by decide)

/-- An argument can be told from its text, which no other letter or digit follows. -/
theorem Proper.apart_argument (h : names.Proper) (hv : names.Counts v) :
    Apart (fun v => (names.argument v).toList) names.Counts Cut v := by
  refine apart_of_text fun {w rest rest'} hw hrest hrest' heq => ?_
  rw [argument, argument, String.append_assoc, String.append_assoc, String.append_right_inj] at heq
  exact (h.value_unique hrest hrest' heq).imp_left (h.value_inj hv)

/-- The text of an operation with its value. -/
theorem instruction_assign (names : Naming) (target : ValueId) (op : Operation) :
    names.instruction (.assign target op) = names.value target ++ (" = " ++ names.operation op) := by
  rw [← String.toList_inj]
  simp [instruction, toString]

/-- The text of a store. -/
theorem instruction_store (names : Naming) (slot : SlotId) (v : ValueId) :
    names.instruction (.store slot v) =
      "store double " ++ (names.value v ++ (", $" ++ slot.index.repr)) := by
  rw [← String.toList_inj]
  simp [instruction, toString]

/-- The text of a call. -/
theorem instruction_call (names : Naming) (target : ValueId) (callee : String)
    (values : List ValueId) : names.instruction (.call target callee values) =
      names.value target ++ (" = " ++ ("call" ++ (" " ++ ("double @" ++
        (callee ++ ("(" ++ (names.arguments values ++ ")"))))))) := by
  rw [← String.toList_inj]
  simp [instruction, toString]

/-- The instruction can be told from its text. -/
structure Shows (names : Naming) (x : Instruction) : Prop where
  numbered : x.Numbered names.parameters.length
  target : ∀ result ∈ x.result?, names.parameters.length ≤ result.1.index
  joined : ∀ target op, x = .assign target op → names.Joined op

/-- A call does not look like another computation. -/
theorem Proper.assign_ne_call (h : names.Proper) (target target' : ValueId) (op : Operation)
    (callee : String) (values : List ValueId) :
    names.instruction (.assign target op) ≠ names.instruction (.call target' callee values) := by
  intro heq
  rw [instruction_assign, instruction_call] at heq
  obtain ⟨-, hbehind⟩ := h.value_unique (cut_append rfl _) (cut_append rfl _) heq
  rw [String.append_right_inj, operation_eq] at hbehind
  have hcode := (word_unique (blank_notMem_opcode op) (by decide) hbehind).1
  cases op with
  | arithmetic op => cases op <;> exact absurd hcode (by rw [opcode]; decide)
  | _ => exact absurd hcode (by rw [opcode]; decide)

/-- What is stored does not look like what is computed. -/
theorem value_ne_store (names : Naming) (target : ValueId) (rest rest' : String) :
    names.value target ++ rest ≠ "store double " ++ rest' := by
  intro heq
  have hlist := congrArg String.toList heq
  rw [String.toList_append, String.toList_append] at hlist
  cases hname : names.parameters[target.index]? with
  | some name =>
    rw [toList_value_parameter hname] at hlist
    exact absurd (List.cons.inj hlist).1 (by decide)
  | none =>
    rw [toList_value_number (List.getElem?_eq_none_iff.1 hname)] at hlist
    exact absurd (List.cons.inj hlist).1 (by decide)

/-- The arguments of a call can be told from what is written for them. -/
theorem Proper.arguments_inj (h : names.Proper) {values values' : List ValueId}
    (hvalues : ∀ v ∈ values, names.Counts v) (hvalues' : ∀ v ∈ values', names.Counts v)
    (heq : ", ".intercalate (values.map names.argument) = ", ".intercalate (values'.map names.argument)) :
    values = values' :=
  (separated_unique (fun _ => h.apart_argument) names.not_closed_argument hvalues hvalues'
    closed_nil closed_nil (congrArg (fun text => text.toList ++ []) heq)).1

/-- The text of an instruction tells which one it is. -/
theorem Proper.instruction_inj (h : names.Proper) {x x' : Instruction} (hx : names.Shows x)
    (hx' : names.Shows x') (heq : names.instruction x = names.instruction x') : x = x' := by
  cases x with
  | assign target op =>
    cases x' with
    | assign target' op' =>
      rw [instruction_assign, instruction_assign] at heq
      obtain ⟨htarget, hbehind⟩ := h.value_unique (cut_append rfl _) (cut_append rfl _) heq
      obtain rfl := h.value_inj (hx.target _ rfl) htarget
      obtain rfl := h.operation_inj hx.numbered (hx.joined _ _ rfl) hx'.numbered (hx'.joined _ _ rfl)
        ((String.append_right_inj _).1 hbehind)
      rfl
    | store slot value =>
      rw [instruction_assign, instruction_store] at heq
      exact (names.value_ne_store _ _ _ heq).elim
    | call target' callee values => exact (h.assign_ne_call _ _ _ _ _ heq).elim
  | store slot v =>
    cases x' with
    | store slot' v' =>
      rw [instruction_store, instruction_store, String.append_right_inj] at heq
      obtain ⟨hv, hbehind⟩ := h.value_unique (cut_append rfl _) (cut_append rfl _) heq
      obtain rfl := SlotId.eq_of_repr_eq ((String.append_right_inj _).1 hbehind)
      have hsame : v = v' := by
        rcases hx.numbered with hnumber | hown
        · exact h.value_inj hnumber hv
        · rcases hx'.numbered with hnumber' | hown'
          · exact (h.value_inj hnumber' hv.symm).symm
          · cases v
            cases v'
            exact congrArg ValueId.mk (hown.trans hown'.symm)
      rw [hsame]
    | assign target op =>
      rw [instruction_assign, instruction_store] at heq
      exact (names.value_ne_store _ _ _ heq.symm).elim
    | call target callee values =>
      rw [instruction_call, instruction_store] at heq
      exact (names.value_ne_store _ _ _ heq.symm).elim
  | call target callee values =>
    cases x' with
    | call target' callee' values' =>
      rw [instruction_call, instruction_call] at heq
      obtain ⟨htarget, hbehind⟩ := h.value_unique (cut_append rfl _) (cut_append rfl _) heq
      simp only [String.append_right_inj] at hbehind
      rw [arguments_eq, arguments_eq] at hbehind
      obtain ⟨rfl, hlist⟩ := hx.numbered.1.unique hx'.numbered.1
        (head?_separated_ne (fun v => ⟨_, rfl⟩) rfl) (head?_separated_ne (fun v => ⟨_, rfl⟩) rfl) hbehind
      obtain rfl := h.value_inj (hx.target _ rfl) htarget
      obtain rfl := h.arguments_inj hx.numbered.2 hx'.numbered.2 ((String.append_left_inj _).1 hlist)
      rfl
    | assign target' op => exact (h.assign_ne_call _ _ _ _ _ heq.symm).elim
    | store slot v =>
      rw [instruction_call, instruction_store] at heq
      exact (names.value_ne_store _ _ _ heq).elim

/-- The text of a branch. -/
theorem terminator_branch (names : Naming) (b : BlockId) :
    names.terminator (some (.branch b)) = "br " ++ ("label " ++ names.block b) := by
  rw [← String.toList_inj]
  simp [terminator, toString]

/-- The text of a branch on a condition. -/
theorem terminator_branchIf (names : Naming) (v : ValueId) (b c : BlockId) :
    names.terminator (some (.branchIf v b c)) = "br " ++ ("i1 " ++ (names.value v ++
      (", label " ++ (names.block b ++ (", label " ++ names.block c))))) := by
  rw [← String.toList_inj]
  simp [terminator, toString]

/-- The text of a return. -/
theorem terminator_ret (names : Naming) (v : ValueId) :
    names.terminator (some (.ret v)) = "ret double " ++ names.value v := by
  rw [← String.toList_inj]
  simp [terminator, toString]

/-- A block can be told from its text. -/
theorem Proper.block_inj (h : names.Proper) (hb : b.index < names.labels.length)
    (hc : c.index < names.labels.length) (heq : names.block b = names.block c) : b = c := by
  have hcut : Cut "".toList := cut_nil
  exact (h.block_unique hb hc hcut hcut (congrArg (· ++ "") heq)).1

/-- The text of a terminator tells which one it is. -/
theorem Proper.terminator_inj (h : names.Proper) {t t' : Terminator}
    (hvalues : ∀ operand ∈ t.operands, names.parameters.length ≤ operand.1.index)
    (hblocks : ∀ block ∈ t.targets, block.index < names.labels.length)
    (hblocks' : ∀ block ∈ t'.targets, block.index < names.labels.length)
    (heq : names.terminator (some t) = names.terminator (some t')) : t = t' := by
  cases t with
  | branch b =>
    cases t' with
    | branch b' =>
      simp only [terminator_branch, String.append_right_inj] at heq
      obtain rfl := h.block_inj (hblocks _ List.mem_cons_self) (hblocks' _ List.mem_cons_self) heq
      rfl
    | branchIf v b c =>
      simp [terminator_branch, terminator_branchIf, ← String.toList_inj] at heq
    | ret v => simp [terminator_branch, terminator_ret, ← String.toList_inj] at heq
  | branchIf v b c =>
    cases t' with
    | branchIf v' b' c' =>
      simp only [terminator_branchIf, String.append_right_inj] at heq
      obtain ⟨hv, hbehind⟩ := h.value_unique (cut_append rfl _) (cut_append rfl _) heq
      obtain ⟨hb, hb'⟩ := List.forall_mem_cons.1 hblocks
      obtain ⟨hc, hc'⟩ := List.forall_mem_cons.1 hblocks'
      obtain ⟨rfl, hlast⟩ := h.block_unique hb hc (cut_append rfl _) (cut_append rfl _)
        ((String.append_right_inj _).1 hbehind)
      obtain rfl := h.block_inj (hb' _ List.mem_cons_self) (hc' _ List.mem_cons_self)
        ((String.append_right_inj _).1 hlast)
      obtain rfl := h.value_inj (hvalues _ List.mem_cons_self) hv
      rfl
    | branch b => simp [terminator_branch, terminator_branchIf, ← String.toList_inj] at heq
    | ret v => simp [terminator_branchIf, terminator_ret, ← String.toList_inj] at heq
  | ret v =>
    cases t' with
    | ret v' =>
      simp only [terminator_ret, String.append_right_inj] at heq
      obtain rfl := h.value_inj (hvalues _ List.mem_cons_self) heq
      rfl
    | branch b => simp [terminator_branch, terminator_ret, ← String.toList_inj] at heq
    | branchIf v b c => simp [terminator_branchIf, terminator_ret, ← String.toList_inj] at heq

end Naming

end Kaleidoscope.Ssa
