import Kaleidoscope.Proofs.Number.Rounding
import Kaleidoscope.Proofs.Syntax.Induction
import Kaleidoscope.Proofs.Text.Runs
import Kaleidoscope.Proofs.Token.Words
import Kaleidoscope.Syntax.Printer

/-!
# The text of a tree tells which tree it is

A compound is written as a head and its parts, each part behind a blank, in parentheses. The head
tells which construct it is, for words begin with a letter and operators are no letters. No text of
a tree is a beginning of another one that a blank or a closing parenthesis follows, so the parts can
be told apart, and how many there are tells whether a loop has a step and whether an operator has
one operand or two.
-/

namespace Kaleidoscope

open Lexer (IsWord isAlpha_of_isDigit)

/-- What follows ends a word: nothing, a blank or a closing parenthesis. -/
def Severed (rest : List Char) : Prop := ∀ c ∈ rest.head?, c = ' ' ∨ c = ')'

/-- Neither a blank nor a closing parenthesis. -/
def isSolid (c : Char) : Bool := c ≠ ' ' && c ≠ ')'

/-- A word ends where the text does. -/
theorem severed_nil : Severed [] := nofun

/-- A word ends before a blank. -/
theorem severed_blank (rest : List Char) : Severed (' ' :: rest) := by
  rintro _ ⟨⟩
  exact .inl rfl

/-- A word ends before a closing parenthesis. -/
theorem severed_close (rest : List Char) : Severed (')' :: rest) := by
  rintro _ ⟨⟩
  exact .inr rfl

/-- A run of characters that are no blanks and no closing parentheses ends where it is severed. -/
theorem solid_unique {a b r r' : List Char} (ha : ∀ c ∈ a, isSolid c) (hb : ∀ c ∈ b, isSolid c)
    (hr : Severed r) (hr' : Severed r') (h : a ++ r = b ++ r') : a = b ∧ r = r' := by
  have hsevered {s : List Char} (hs : Severed s) : ∀ c ∈ s.head?, ¬ isSolid c = true := by
    intro c hc
    rcases hs c hc with rfl | rfl <;> decide
  exact run_unique ha hb (hsevered hr) (hsevered hr') h

section

variable {α : Type} {write : α → List Char} {S : α → Prop}

/-- What is written for `a` is not written for anything else, and is no beginning of what is, where
it is severed. -/
def Distinct (write : α → List Char) (S : α → Prop) (a : α) : Prop :=
  ∀ {b r r'}, S b → Severed r → Severed r' → write a ++ r = write b ++ r' → a = b ∧ r = r'

/-- Parts behind a blank each. -/
def writeAll (write : α → List Char) (parts : List α) : List Char :=
  parts.flatMap fun part => ' ' :: write part

/-- Behind parts and a closing parenthesis a word is severed. -/
theorem severed_writeAll (parts : List α) (rest : List Char) :
    Severed (writeAll write parts ++ ')' :: rest) := by
  cases parts with
  | nil => exact severed_close rest
  | cons => exact severed_blank _

/-- Behind a blank comes another part. -/
theorem framed_parts :
    Framed (fun part => ' ' :: write part) (fun _ => True) Severed (∃ rest, · = ')' :: rest) where
  begins := by
    rintro a - r ⟨rest, hend⟩
    cases hend
  fits := by
    rintro as - r ⟨rest, rfl⟩
    exact severed_writeAll as rest

/-- Up to the closing parenthesis, parts can be told apart. -/
theorem writeAll_unique {as bs : List α} (has : ∀ a ∈ as, Distinct write S a) (hbs : ∀ b ∈ bs, S b)
    {r r' : List Char} (h : writeAll write as ++ ')' :: r = writeAll write bs ++ ')' :: r') :
    as = bs ∧ r = r' := by
  have hapart : ∀ a ∈ as, Apart (fun part => ' ' :: write part) S Severed a := by
    intro a ha b r r' hb hr hr' heq
    exact has a ha hb hr hr' (List.cons.inj heq).2
  have hparts := framed_parts.unique (fun _ _ => trivial) hapart (fun _ _ => trivial) hbs
    ⟨r, rfl⟩ ⟨r', rfl⟩ h
  exact hparts.imp_right fun hrest => (List.cons.inj hrest).2

end

/-- Letters and digits are solid. -/
theorem isSolid_of_isAlphanum {c : Char} (h : c.isAlphanum) : isSolid c := by
  rw [isSolid, Bool.and_eq_true, decide_eq_true_eq, decide_eq_true_eq]
  constructor
  · rintro rfl
    exact absurd h (by decide)
  · rintro rfl
    exact absurd h (by decide)

/-- What numerals are made of is solid. -/
theorem isSolid_of_isLiteralChar {c : Char} (h : Number.isLiteralChar c) : isSolid c := by
  rw [Number.isLiteralChar, Bool.or_eq_true, decide_eq_true_eq] at h
  rcases h with hdigit | rfl
  · exact isSolid_of_isAlphanum (by rw [Char.isAlphanum, hdigit, Bool.or_true])
  · rfl

/-- Words end where they are severed. -/
theorem isWord_unique {name name' : String} (h : IsWord name) (h' : IsWord name') {r r' : List Char}
    (hr : Severed r) (hr' : Severed r') (heq : name.toList ++ r = name'.toList ++ r') :
    name = name' ∧ r = r' := by
  obtain ⟨hname, hrest⟩ := solid_unique (fun c hc => isSolid_of_isAlphanum (h.isAlphanum c hc))
    (fun c hc => isSolid_of_isAlphanum (h'.isAlphanum c hc)) hr hr' heq
  exact ⟨String.toList_inj.1 hname, hrest⟩

namespace Number

/-- A finite number begins with a digit or a sign. -/
theorem exists_first {x : Float} (hx : IsFinite x) :
    ∃ first rest, (text x).toList = first :: rest ∧ first.isAlpha = false ∧ first ≠ '(' := by
  obtain ⟨value, hvalue⟩ := hx
  obtain ⟨first, rest, heq, hfirst, -⟩ := @exists_digit value
  rw [text, String.toList_ofList, characters_finite hvalue, heq]
  split
  · exact ⟨'-', _, rfl, rfl, by decide⟩
  · refine ⟨first, rest, rfl, isAlpha_of_isDigit hfirst, ?_⟩
    rintro rfl
    exact absurd hfirst (by decide)

/-- The text of a finite number has no blank and no parenthesis in it. -/
theorem isSolid_text {x : Float} (hx : IsFinite x) : ∀ c ∈ (text x).toList, isSolid c := by
  obtain ⟨value, hvalue⟩ := hx
  obtain ⟨-, -, -, -, hliteral⟩ := @exists_digit value
  rw [text, String.toList_ofList, characters_finite hvalue]
  refine List.forall_mem_append.2 ⟨?_, fun c hc => ?_⟩
  · split
    · exact List.forall_mem_singleton.2 (by decide)
    · nofun
  · exact isSolid_of_isLiteralChar (hliteral c hc)

end Number

namespace Expr

/-- The literal of the node, if it is one, is finite. -/
def FiniteLiteral : Expr → Prop
  | number value => Number.IsFinite value
  | _ => True

/-- A node that can be told from others by its text: its literal is finite, its names are words, its
operator is no letter, and it has a local variable if it is there to have some. -/
def Legible : Expr → Prop
  | number value => Number.IsFinite value
  | var name => IsWord name
  | unary operator _ | binary operator _ _ => operator.isAlpha = false
  | call callee _ => IsWord callee
  | conditional .. => True
  | loop name .. => IsWord name
  | locals bindings _ => bindings ≠ [] ∧ ∀ binding ∈ bindings, IsWord binding.1

/-- A node that is spelled as programs spell it: its names are words, its operator is neither a
letter nor a newline, and it has a local variable if it is there to have some. -/
def Spelled : Expr → Prop
  | number _ | conditional .. => True
  | var name | call name _ | loop name .. => IsWord name
  | unary operator _ | binary operator _ _ => operator.isAlpha = false ∧ operator ≠ '\n'
  | locals bindings _ => bindings ≠ [] ∧ ∀ binding ∈ bindings, IsWord binding.1

/-- How a node is spelled leaves open only whether its literal is finite. -/
theorem Spelled.legible {e : Expr} (h : e.Spelled) (hfinite : e.FiniteLiteral) : e.Legible := by
  cases e with
  | number => exact hfinite
  | unary | binary => exact h.1
  | _ => exact h

/-- The characters of a tree's text. -/
def characters (e : Expr) : List Char := e.text.toList

/-- The characters of the text of a local variable. -/
def bindingCharacters : String × Option Expr → List Char
  | (name, none) => name.toList
  | (name, some value) => '(' :: (name.toList ++ ' ' :: (value.characters ++ [')']))

/-- The parts of a loop in the order in which they are written. -/
def loopParts (start finish : Expr) (step : Option Expr) (body : Expr) : List Expr :=
  start :: finish :: (step.toList ++ [body])

/-- The text of arguments has a blank before each of them. -/
theorem toList_argumentsText (arguments : List Expr) :
    (argumentsText arguments).toList = writeAll characters arguments := by
  induction arguments with
  | nil => rfl
  | cons first rest ih => simp [argumentsText, writeAll, characters, ih, toString]

/-- The text of a prefix operator with its operand. -/
theorem characters_unary (operator : Char) (operand : Expr) :
    (unary operator operand).characters =
      '(' :: operator :: (writeAll characters [operand] ++ [')']) := by
  simp [characters, text, writeAll, toString]

/-- The text of an infix operator with its operands. -/
theorem characters_binary (operator : Char) (left right : Expr) :
    (binary operator left right).characters =
      '(' :: operator :: (writeAll characters [left, right] ++ [')']) := by
  simp [characters, text, writeAll, toString]

/-- The text of a call. -/
theorem characters_call (callee : String) (arguments : List Expr) :
    (call callee arguments).characters =
      "(call ".toList ++ (callee.toList ++ (writeAll characters arguments ++ [')'])) := by
  simp [characters, text, toList_argumentsText, toString]

/-- The text of a conditional. -/
theorem characters_conditional (condition consequent alternative : Expr) :
    (conditional condition consequent alternative).characters =
      "(if".toList ++ (writeAll characters [condition, consequent, alternative] ++ [')']) := by
  simp [characters, text, writeAll, toString]

/-- The text of a loop. -/
theorem characters_loop (name : String) (start finish : Expr) (step : Option Expr) (body : Expr) :
    (loop name start finish step body).characters =
      "(for ".toList ++ (name.toList ++
        (writeAll characters (loopParts start finish step body) ++ [')'])) := by
  cases step <;> simp [loopParts, characters, text, writeAll, toString]

/-- The text of local variables with their body. -/
theorem characters_locals (bindings : List (String × Option Expr)) (body : Expr) :
    (locals bindings body).characters =
      "(var (".toList ++ ((bindingsText bindings).toList ++
        ')' :: (writeAll characters [body] ++ [')'])) := by
  simp [characters, text, writeAll, toString]

/-- Behind a blank, local variables are written like other parts. -/
theorem toList_bindingsText {bindings : List (String × Option Expr)} (h : bindings ≠ []) :
    ' ' :: (bindingsText bindings).toList = writeAll bindingCharacters bindings := by
  induction bindings with
  | nil => exact (h rfl).elim
  | cons first rest ih =>
    cases rest with
    | nil =>
      obtain ⟨name, value | value⟩ := first <;>
        simp [bindingsText, bindingCharacters, writeAll, characters, toString]
    | cons second rest =>
      have hmore : (bindingsText (first :: second :: rest)).toList =
          bindingCharacters first ++ ' ' :: (bindingsText (second :: rest)).toList := by
        obtain ⟨name, value | value⟩ := first <;>
          simp [bindingsText, bindingCharacters, characters, toString]
      rw [hmore, ih (List.cons_ne_nil _ _)]
      rfl

/-- What the first characters of a text tell. -/
inductive Form where
  | number
  | word
  | operation
  | call
  | conditional
  | loop
  | locals

/-- The form of a tree. Prefix and infix operators are written alike. -/
def form : Expr → Form
  | number _ => .number
  | var _ => .word
  | unary .. | binary .. => .operation
  | call .. => .call
  | conditional .. => .conditional
  | loop .. => .loop
  | locals .. => .locals

/-- The form of the tree that a text is of. -/
def Form.ofText : List Char → Form
  | '(' :: c :: _ =>
    if c = 'c' then .call else if c = 'i' then .conditional else if c = 'f' then .loop
    else if c = 'v' then .locals else .operation
  | c :: _ => if c.isAlpha then .word else .number
  | [] => .number

/-- A symbol behind the opening parenthesis tells an operator application. -/
theorem Form.ofText_operator {operator : Char} (h : operator.isAlpha = false) (rest : List Char) :
    ofText ('(' :: operator :: rest) = .operation := by
  have hne {c : Char} (hc : c.isAlpha) : operator ≠ c := by
    rintro rfl
    rw [h] at hc
    cases hc
  rw [ofText, if_neg (hne rfl), if_neg (hne rfl), if_neg (hne rfl), if_neg (hne rfl)]

/-- What is not in parentheses is a variable or a number. -/
theorem Form.ofText_leaf {c : Char} (h : c ≠ '(') (rest : List Char) :
    ofText (c :: rest) = if c.isAlpha then .word else .number := by
  unfold ofText
  split
  · rename_i heq
    cases heq
    exact (h rfl).elim
  · rename_i heq
    cases heq
    rfl
  · rename_i heq
    cases heq

/-- The text of a tree tells its form. -/
theorem ofText_characters {e : Expr} (he : e.Legible) (rest : List Char) :
    Form.ofText (e.characters ++ rest) = e.form := by
  cases e with
  | number value =>
    obtain ⟨first, behind, heq, hfirst, hopen⟩ := Number.exists_first he
    rw [characters, text, heq, List.cons_append, Form.ofText_leaf hopen, if_neg (by rw [hfirst]; nofun)]
    rfl
  | var name =>
    obtain ⟨first, behind, heq, hfirst, -⟩ := he
    have hopen : first ≠ '(' := by
      rintro rfl
      exact absurd hfirst (by decide)
    rw [characters, text, heq, List.cons_append, Form.ofText_leaf hopen, if_pos hfirst]
    rfl
  | unary operator operand => rw [characters_unary]; exact Form.ofText_operator he _
  | binary operator left right => rw [characters_binary]; exact Form.ofText_operator he _
  | call callee arguments => rw [characters_call]; rfl
  | conditional condition consequent alternative => rw [characters_conditional]; rfl
  | loop name start finish step body => rw [characters_loop]; rfl
  | locals bindings body => rw [characters_locals]; rfl

/-- What holds of the parts of a loop holds of all of them in order. -/
theorem forall_mem_loopParts {P : Expr → Prop} {start finish body : Expr} {step : Option Expr}
    (hstart : P start) (hfinish : P finish) (hstep : ∀ e ∈ step, P e) (hbody : P body) :
    ∀ e ∈ loopParts start finish step body, P e := by
  refine List.forall_mem_cons.2 ⟨hstart, List.forall_mem_cons.2 ⟨hfinish, ?_⟩⟩
  exact List.forall_mem_append.2 ⟨fun e he => hstep e (Option.mem_toList.1 he),
    List.forall_mem_singleton.2 hbody⟩

/-- How many parts a loop has tells whether its step is among them. -/
theorem loopParts_inj {start finish body start' finish' body' : Expr} {step step' : Option Expr}
    (h : loopParts start finish step body = loopParts start' finish' step' body') :
    start = start' ∧ finish = finish' ∧ step = step' ∧ body = body' := by
  cases step <;> cases step' <;> simp_all [loopParts]

/-- A local variable can be told from others by its text if its initial value can. -/
theorem distinct_binding {binding : String × Option Expr} (hname : IsWord binding.1)
    (hvalue : ∀ e ∈ binding.2, Distinct characters (Every Legible) e) :
    Distinct bindingCharacters (fun b => IsWord b.1 ∧ ∀ e ∈ b.2, e.Every Legible) binding := by
  have hopen {name : String} (hword : IsWord name) {s s' : List Char} : name.toList ++ s ≠ '(' :: s' := by
    obtain ⟨first, rest, heq, hfirst, -⟩ := hword
    rw [heq]
    rintro ⟨⟩
    exact absurd hfirst (by decide)
  obtain ⟨name, value⟩ := binding
  rintro ⟨name', value'⟩ r r' ⟨hname', hvalue'⟩ hr hr' h
  cases value with
  | none =>
    cases value' with
    | none =>
      obtain ⟨rfl, hrest⟩ := isWord_unique hname hname' hr hr' h
      exact ⟨rfl, hrest⟩
    | some e' => exact (hopen hname h).elim
  | some e =>
    cases value' with
    | none => exact (hopen hname' h.symm).elim
    | some e' =>
      simp only [bindingCharacters, List.cons_append, List.append_assoc, List.cons.injEq, true_and,
        List.nil_append] at h
      obtain ⟨rfl, hbehind⟩ := isWord_unique hname hname' (severed_blank _) (severed_blank _) h
      obtain ⟨rfl, hrest⟩ := hvalue e rfl (hvalue' e' rfl) (severed_close r) (severed_close r')
        (List.cons.inj hbehind).2
      exact ⟨rfl, (List.cons.inj hrest).2⟩

/-- Trees whose texts cannot be told apart have the same form. -/
theorem form_eq {a b : Expr} {r r' : List Char} (ha : a.Every Legible) (hb : b.Every Legible)
    (h : a.characters ++ r = b.characters ++ r') : a.form = b.form := by
  rw [← ofText_characters ha.node r, ← ofText_characters hb.node r', h]

/-- Operators are told apart by their symbols and by their operands, which tell how many there
are. -/
theorem operation_unique {operator operator' : Char} {operands operands' : List Expr} {r r' : List Char}
    (hdistinct : ∀ e ∈ operands, Distinct characters (Every Legible) e)
    (hlegible : ∀ e ∈ operands', e.Every Legible)
    (h : '(' :: operator :: (writeAll characters operands ++ [')']) ++ r =
      '(' :: operator' :: (writeAll characters operands' ++ [')']) ++ r') :
    operator = operator' ∧ operands = operands' ∧ r = r' := by
  simp only [List.cons_append, List.append_assoc, List.cons.injEq, true_and, List.nil_append] at h
  exact ⟨h.1, writeAll_unique hdistinct hlegible h.2⟩

/-- A tree whose nodes are legible can be told from other such trees by its text. -/
theorem distinct_characters {e : Expr} (he : e.Every Legible) :
    Distinct characters (Every Legible) e := by
  induction he with
  | number hnumber =>
    intro b r r' hb hr hr' h
    have hform := form_eq (.number hnumber) hb h
    cases hb with
    | number hnumber' =>
      obtain ⟨htext, hrest⟩ :=
        solid_unique (Number.isSolid_text hnumber) (Number.isSolid_text hnumber') hr hr' h
      rw [Number.text_injective hnumber hnumber' (String.toList_inj.1 htext)]
      exact ⟨rfl, hrest⟩
    | _ => cases hform
  | var hname =>
    intro b r r' hb hr hr' h
    have hform := form_eq (.var hname) hb h
    cases hb with
    | var hname' =>
      obtain ⟨rfl, hrest⟩ := isWord_unique hname hname' hr hr' h
      exact ⟨rfl, hrest⟩
    | _ => cases hform
  | unary hoperator hoperand ih =>
    intro b r r' hb hr hr' h
    have hform := form_eq (.unary hoperator hoperand) hb h
    rw [characters_unary] at h
    have hparts := List.forall_mem_singleton.2 @ih
    cases hb with
    | unary _ hoperand' =>
      rw [characters_unary] at h
      obtain ⟨rfl, hsame, hrest⟩ := operation_unique hparts (List.forall_mem_singleton.2 hoperand') h
      cases hsame
      exact ⟨rfl, hrest⟩
    | binary _ hleft hright =>
      rw [characters_binary] at h
      obtain ⟨-, hsame, -⟩ := operation_unique hparts (by simp [hleft, hright]) h
      cases hsame
    | _ => cases hform
  | binary hoperator hleft hright ihl ihr =>
    intro b r r' hb hr hr' h
    have hform := form_eq (.binary hoperator hleft hright) hb h
    rw [characters_binary] at h
    have hparts := List.forall_mem_cons.2 ⟨@ihl, List.forall_mem_singleton.2 @ihr⟩
    cases hb with
    | unary _ hoperand' =>
      rw [characters_unary] at h
      obtain ⟨-, hsame, -⟩ := operation_unique hparts (List.forall_mem_singleton.2 hoperand') h
      cases hsame
    | binary _ hleft' hright' =>
      rw [characters_binary] at h
      obtain ⟨rfl, hsame, hrest⟩ := operation_unique hparts (by simp [hleft', hright']) h
      cases hsame
      exact ⟨rfl, hrest⟩
    | _ => cases hform
  | call hcallee harguments ih =>
    intro b r r' hb hr hr' h
    have hform := form_eq (.call hcallee harguments) hb h
    cases hb with
    | call hcallee' harguments' =>
      rw [characters_call, characters_call] at h
      simp only [List.append_assoc, List.append_cancel_left_eq, List.singleton_append] at h
      obtain ⟨rfl, hbehind⟩ :=
        isWord_unique hcallee hcallee' (severed_writeAll _ _) (severed_writeAll _ _) h
      obtain ⟨rfl, hrest⟩ := writeAll_unique @ih harguments' hbehind
      exact ⟨rfl, hrest⟩
    | _ => cases hform
  | conditional hnode hcondition hconsequent halternative ihc iht iha =>
    intro b r r' hb hr hr' h
    have hform := form_eq (.conditional hnode hcondition hconsequent halternative) hb h
    cases hb with
    | conditional _ hcondition' hconsequent' halternative' =>
      rw [characters_conditional, characters_conditional] at h
      simp only [List.append_assoc, List.append_cancel_left_eq, List.singleton_append] at h
      obtain ⟨hsame, hrest⟩ := writeAll_unique (S := Every Legible) (by simp [@ihc, @iht, @iha])
        (by simp [hcondition', hconsequent', halternative']) h
      cases hsame
      exact ⟨rfl, hrest⟩
    | _ => cases hform
  | loop hname hstart hfinish hstep hbody ihs ihf ihstep ihb =>
    intro b r r' hb hr hr' h
    have hform := form_eq (.loop hname hstart hfinish hstep hbody) hb h
    cases hb with
    | loop hname' hstart' hfinish' hstep' hbody' =>
      rw [characters_loop, characters_loop] at h
      simp only [List.append_assoc, List.append_cancel_left_eq, List.singleton_append] at h
      obtain ⟨rfl, hbehind⟩ :=
        isWord_unique hname hname' (severed_writeAll _ _) (severed_writeAll _ _) h
      obtain ⟨hsame, hrest⟩ := writeAll_unique (forall_mem_loopParts @ihs @ihf @ihstep @ihb)
        (forall_mem_loopParts hstart' hfinish' hstep' hbody') hbehind
      obtain ⟨rfl, rfl, rfl, rfl⟩ := loopParts_inj hsame
      exact ⟨rfl, hrest⟩
    | _ => cases hform
  | locals hbindings hvalues hbody ihs ihb =>
    intro b r r' hb hr hr' h
    have hform := form_eq (.locals hbindings hvalues hbody) hb h
    cases hb with
    | locals hbindings' hvalues' hbody' =>
      rw [characters_locals, characters_locals] at h
      simp only [List.append_assoc, List.append_cancel_left_eq, List.cons_append,
        List.nil_append] at h
      have hblank := congrArg (' ' :: ·) h
      simp only [← List.cons_append, toList_bindingsText hbindings.1,
        toList_bindingsText hbindings'.1] at hblank
      obtain ⟨rfl, hbehind⟩ := writeAll_unique
        (fun binding hbinding => distinct_binding (hbindings.2 binding hbinding) (ihs binding hbinding))
        (fun binding hbinding => ⟨hbindings'.2 binding hbinding, hvalues' binding hbinding⟩) hblank
      obtain ⟨hsame, hrest⟩ := writeAll_unique (List.forall_mem_singleton.2 @ihb)
        (List.forall_mem_singleton.2 hbody') hbehind
      cases hsame
      exact ⟨rfl, hrest⟩
    | _ => cases hform

end Expr

end Kaleidoscope
