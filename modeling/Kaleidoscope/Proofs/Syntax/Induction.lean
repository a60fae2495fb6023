import Kaleidoscope.Syntax

/-!
# Induction on expressions

Expressions hold lists of arguments, lists of bindings and optional parts. The principle below hands
out the hypothesis for every expression among them, so a proof about expressions needs an induction
on those lists only where the lists themselves matter. In the same way a property is said to hold of
every node.
-/

namespace Kaleidoscope.Expr

/-- What holds of an expression whenever it holds of its parts holds of every expression. -/
@[elab_as_elim, induction_eliminator]
theorem inductionOnParts {P : Expr → Prop} (e : Expr)
    (number : ∀ value, P (.number value))
    (var : ∀ name, P (.var name))
    (unary : ∀ operator operand, P operand → P (.unary operator operand))
    (binary : ∀ operator left right, P left → P right → P (.binary operator left right))
    (call : ∀ callee arguments, (∀ e ∈ arguments, P e) → P (.call callee arguments))
    (conditional : ∀ condition consequent alternative, P condition → P consequent →
      P alternative → P (.conditional condition consequent alternative))
    (loop : ∀ name start finish step body, P start → P finish → (∀ e ∈ step, P e) → P body →
      P (.loop name start finish step body))
    (locals : ∀ bindings body, (∀ binding ∈ bindings, ∀ e ∈ binding.2, P e) → P body →
      P (.locals bindings body)) : P e := by
  apply @Expr.rec P (fun arguments => ∀ e ∈ arguments, P e) (fun step => ∀ e ∈ step, P e)
    (fun bindings => ∀ binding ∈ bindings, ∀ e ∈ binding.2, P e)
    (fun binding => ∀ e ∈ binding.2, P e) number var unary binary call conditional loop locals
  -- What remains is that the empty list has no members and a longer one its head and its tail's.
  all_goals simp +contextual

/-- Every node of a tree has a property. -/
inductive Every (P : Expr → Prop) : Expr → Prop where
  | number {value} : P (.number value) → Every P (.number value)
  | var {name} : P (.var name) → Every P (.var name)
  | unary {operator operand} : P (.unary operator operand) → Every P operand →
      Every P (.unary operator operand)
  | binary {operator left right} : P (.binary operator left right) → Every P left →
      Every P right → Every P (.binary operator left right)
  | call {callee arguments} : P (.call callee arguments) → (∀ e ∈ arguments, Every P e) →
      Every P (.call callee arguments)
  | conditional {condition consequent alternative} :
      P (.conditional condition consequent alternative) → Every P condition →
      Every P consequent → Every P alternative →
      Every P (.conditional condition consequent alternative)
  | loop {name start finish step body} : P (.loop name start finish step body) →
      Every P start → Every P finish → (∀ e ∈ step, Every P e) → Every P body →
      Every P (.loop name start finish step body)
  | locals {bindings body} : P (.locals bindings body) →
      (∀ binding ∈ bindings, ∀ e ∈ binding.2, Every P e) → Every P body →
      Every P (.locals bindings body)

/-- A property of all expressions holds of every node. -/
theorem Every.of_forall {P : Expr → Prop} (h : ∀ e, P e) (e : Expr) : e.Every P := by
  induction e with
  | number => exact .number (h _)
  | var => exact .var (h _)
  | unary _ _ ih => exact .unary (h _) ih
  | binary _ _ _ ihl ihr => exact .binary (h _) ihl ihr
  | call _ _ ih => exact .call (h _) ih
  | conditional _ _ _ ihc iht ihe => exact .conditional (h _) ihc iht ihe
  | loop _ _ _ _ _ ihs ihf ihstep ihb => exact .loop (h _) ihs ihf ihstep ihb
  | locals _ _ ihs ihb => exact .locals (h _) ihs ihb

/-- What holds of every node holds of the tree as a whole. -/
theorem Every.node {P : Expr → Prop} {e : Expr} (h : e.Every P) : P e := by
  cases h <;> assumption

/-- A weaker property holds of every node too. -/
theorem Every.mono {P Q : Expr → Prop} {e : Expr} (h : e.Every P) (hPQ : ∀ e, P e → Q e) :
    e.Every Q := by
  induction h with
  | number h => exact .number (hPQ _ h)
  | var h => exact .var (hPQ _ h)
  | unary h _ ih => exact .unary (hPQ _ h) ih
  | binary h _ _ ihl ihr => exact .binary (hPQ _ h) ihl ihr
  | call h _ ih => exact .call (hPQ _ h) ih
  | conditional h _ _ _ ihc iht ihe => exact .conditional (hPQ _ h) ihc iht ihe
  | loop h _ _ _ _ ihs ihf ihstep ihb => exact .loop (hPQ _ h) ihs ihf ihstep ihb
  | locals h _ _ ihs ihb => exact .locals (hPQ _ h) ihs ihb

/-- The operator of the node, if it stands between operands, is one of the table. -/
def Knows (table : OperatorTable) : Expr → Prop
  | binary operator _ _ => (table.lookup operator).isSome
  | _ => True

end Kaleidoscope.Expr
