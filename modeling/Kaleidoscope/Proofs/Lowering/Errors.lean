import Kaleidoscope.Proofs.Lowering.Faults

/-!
# Why generation fails

A name may be unknown, a call may have the wrong number of arguments, and the target of an
assignment may be no variable. Nothing else goes wrong: where every binary operator has a function
of two parameters behind it, no operator is found to be without one.
-/

namespace Kaleidoscope

/-- The causes that lie in the program text. The others would be faults of the compiler. -/
def CompileError.IsReportable : CompileError → Prop
  | unknown .. | arity .. | assignmentTarget => True
  | unimplemented _ | precedence _ | verify _ => False

/-- The operator of the node is built in, or there is a function of two parameters behind it. -/
def Surroundings.Implements (env : Surroundings) : Expr → Prop
  | .binary operator _ _ =>
    OperatorTable.isBuiltin operator ∨ env.arity? (Prototype.binaryName operator) = some 2
  | _ => True

section Causes

variable {env : Surroundings} {P : CompileError → Prop} {cause : CompileError}

/-- A variable can only be unknown. -/
theorem isReportable_of_mem_variableFaults {names : List String} {name : String}
    (h : cause ∈ variableFaults names name) : cause.IsReportable := by
  rw [variableFaults] at h
  split at h
  · cases h
  · obtain rfl := List.mem_singleton.1 h
    trivial

namespace Surroundings

/-- A callee can be unknown or have another number of parameters. -/
theorem isReportable_of_mem_callFaults {callee : String} {arguments : Nat}
    (h : cause ∈ env.callFaults callee arguments) : cause.IsReportable := by
  rw [callFaults] at h
  split at h
  · obtain rfl := List.mem_singleton.1 h
    trivial
  · split at h
    · cases h
    · obtain rfl := List.mem_singleton.1 h
      trivial

/-- So can the function behind a prefix operator. -/
theorem isReportable_of_mem_prefixFaults {operator : Char}
    (h : cause ∈ env.prefixFaults operator) : cause.IsReportable := by
  rw [prefixFaults] at h
  split at h
  · obtain rfl := List.mem_singleton.1 h
    trivial
  · split at h
    · cases h
    · obtain rfl := List.mem_singleton.1 h
      trivial

/-- A binary operator can only be without an implementation. -/
theorem of_mem_binaryFaults {operator : Char} {left right : Expr}
    (h : env.Implements (.binary operator left right) ∨ ∀ operator, P (.unimplemented operator))
    (hmem : cause ∈ env.binaryFaults operator) : P cause := by
  rw [binaryFaults] at hmem
  split at hmem
  · cases hmem
  · rename_i hnone
    obtain rfl := List.mem_singleton.1 hmem
    exact h.resolve_left hnone operator

end Surroundings

namespace Expr

/-- A fault among arguments is one of theirs. -/
theorem mem_argumentFaults {names : List String} {arguments : List Expr} :
    cause ∈ argumentFaults env names arguments ↔ ∃ e ∈ arguments, cause ∈ e.faults env names := by
  induction arguments with
  | nil => simp [argumentFaults]
  | cons first rest ih => simp [argumentFaults, ih]

/-- A fault of an optional part is one of the expression there. -/
theorem mem_partFaults {names : List String} {part : Option Expr} :
    cause ∈ partFaults env names part ↔ ∃ e ∈ part, cause ∈ e.faults env names := by
  cases part with
  | none => simp [partFaults]
  | some e => simp [partFaults]

/-- A fault among local variables is one of an initial value, whichever variables that sees. -/
theorem exists_mem_of_mem_bindingFaults {names : List String}
    {bindings : List (String × Option Expr)} (h : cause ∈ bindingFaults env names bindings) :
    ∃ binding ∈ bindings, ∃ e ∈ binding.2, ∃ names, cause ∈ e.faults env names := by
  induction bindings generalizing names with
  | nil => cases h
  | cons binding rest ih =>
    obtain ⟨name, initial⟩ := binding
    rcases List.mem_append.1 h with h | h
    · obtain ⟨e, he, hcause⟩ := mem_partFaults.1 h
      exact ⟨_, List.mem_cons_self, e, he, names, hcause⟩
    · obtain ⟨found, hfound, hcause⟩ := ih h
      exact ⟨found, List.mem_cons_of_mem _ hfound, hcause⟩

/-- The faults of an expression lie in the program text, unless an operator is not implemented. -/
theorem of_mem_faults (hreport : ∀ e : CompileError, e.IsReportable → P e) {e : Expr}
    (h : e.Every fun node => env.Implements node ∨ ∀ operator, P (.unimplemented operator))
    {names : List String} (hmem : cause ∈ e.faults env names) : P cause := by
  induction h generalizing names with
  | number => cases hmem
  | var => exact hreport _ (isReportable_of_mem_variableFaults hmem)
  | unary _ _ ih =>
    rcases List.mem_append.1 hmem with hmem | hmem
    · exact ih hmem
    · exact hreport _ (Surroundings.isReportable_of_mem_prefixFaults hmem)
  | @binary operator left right h _ _ ihl ihr =>
    by_cases hassign : operator = '='
    · subst hassign
      -- Only a variable can be assigned to, and what is wrong with any other target is all there is.
      have hcause : cause ∈ right.faults env names ∨ cause.IsReportable := by
        cases left with
        | var name =>
          exact (List.mem_append.1 hmem).imp_right isReportable_of_mem_variableFaults
        | _ =>
          refine (List.mem_cons.1 hmem).symm.imp_right ?_
          rintro rfl
          trivial
      exact hcause.elim ihr (hreport _)
    · simp only [faults, if_neg hassign, List.mem_append] at hmem
      rcases hmem with hmem | hmem | hmem
      · exact ihl hmem
      · exact ihr hmem
      · exact Surroundings.of_mem_binaryFaults h hmem
  | call _ _ ih =>
    rcases List.mem_append.1 hmem with hmem | hmem
    · obtain ⟨e, he, hcause⟩ := mem_argumentFaults.1 hmem
      exact ih e he hcause
    · exact hreport _ (Surroundings.isReportable_of_mem_callFaults hmem)
  | conditional _ _ _ _ ihc iht ihe =>
    simp only [faults, List.mem_append] at hmem
    rcases hmem with hmem | hmem | hmem
    · exact ihc hmem
    · exact iht hmem
    · exact ihe hmem
  | loop _ _ _ _ _ ihs ihf ihstep ihb =>
    simp only [faults, List.mem_append, mem_partFaults] at hmem
    rcases hmem with hmem | hmem | ⟨e, he, hcause⟩ | hmem
    · exact ihs hmem
    · exact ihb hmem
    · exact ihstep e he hcause
    · exact ihf hmem
  | locals _ _ _ ihs ihb =>
    rcases List.mem_append.1 hmem with hmem | hmem
    · obtain ⟨binding, hbinding, e, he, _, hcause⟩ := exists_mem_of_mem_bindingFaults hmem
      exact ihs binding hbinding e he hcause
    · exact ihb hmem

end Expr

/-- What makes generation fail is one of the faults. -/
theorem mem_faults_of_lower_eq_error {body : Expr} (h : lower env body = .error cause) :
    cause ∈ body.faults env env.self.parameters :=
  List.mem_of_mem_head? (lower_eq_error_iff_head?_faults.1 h)

end Causes

/-- A function whose operators are implemented fails to be generated only for a cause in the program
text. -/
theorem isReportable_of_lower_eq_error {env : Surroundings} {body : Expr} {e : CompileError}
    (hbody : body.Every env.Implements) (h : lower env body = .error e) : e.IsReportable :=
  Expr.of_mem_faults (fun _ he => he) (hbody.mono fun _ => .inl) (mem_faults_of_lower_eq_error h)

/-- Any function fails to be generated only for such a cause, or because an operator is not
implemented. -/
theorem cause_of_lower_eq_error {env : Surroundings} {body : Expr} {e : CompileError}
    (h : lower env body = .error e) : e.IsReportable ∨ ∃ operator, e = .unimplemented operator := by
  have hcauses : body.Every fun node => env.Implements node ∨ ∀ operator,
      (CompileError.unimplemented operator).IsReportable ∨
        ∃ other, CompileError.unimplemented operator = .unimplemented other :=
    .of_forall (fun _ => .inr fun operator => .inr ⟨operator, rfl⟩) body
  exact @Expr.of_mem_faults env (fun e => e.IsReportable ∨ ∃ operator, e = .unimplemented operator)
    e (fun _ => .inl) body hcauses _ (mem_faults_of_lower_eq_error h)

/-- The final check finds no fault in a generated function. -/
theorem ne_verify_of_lower_eq_error {env : Surroundings} {body : Expr} {e : CompileError}
    (h : lower env body = .error e) (fault : Ssa.VerifyError) : e ≠ .verify fault := by
  rintro rfl
  obtain hreport | ⟨operator, hoperator⟩ := cause_of_lower_eq_error h
  · exact hreport
  · cases hoperator

/-- No precedence is looked at while a function is generated. -/
theorem ne_precedence_of_lower_eq_error {env : Surroundings} {body : Expr} {e : CompileError}
    (h : lower env body = .error e) (cause : PrecedenceError) : e ≠ .precedence cause := by
  rintro rfl
  obtain hreport | ⟨operator, hoperator⟩ := cause_of_lower_eq_error h
  · exact hreport
  · cases hoperator

end Kaleidoscope
