import Kaleidoscope.Proofs.Ssa.Notation

/-!
# The listing of a function tells which one it is

No name has a newline in it, so a listing falls into its lines. A line that begins with a letter is
a label, and the indented lines behind it are those of its block. Slots come before instructions,
and a terminator comes last. How many values there are is not shown, but follows from what the
instructions compute.
-/

namespace Kaleidoscope.Ssa

open Lexer (IsWord)

/-- There is no newline in the text. -/
def OneLine (text : String) : Prop := '\n' ∉ text.toList

/-- Two texts are on one line if both are. -/
@[simp]
theorem oneLine_append {a b : String} : OneLine (a ++ b) ↔ OneLine a ∧ OneLine b := by
  simp [OneLine, String.toList_append, not_or]

instance (text : String) : Decidable (OneLine text) := inferInstanceAs (Decidable (_ ∉ _))

/-- Letters and digits are on one line. -/
theorem oneLine_of_isAlphanum {text : String} (h : ∀ c ∈ text.toList, c.isAlphanum) : OneLine text :=
  fun hmem => absurd (h _ hmem) (by decide)

/-- The digits of a number are on one line. -/
theorem oneLine_repr (n : Nat) : OneLine n.repr := by
  refine oneLine_of_isAlphanum fun c hc => ?_
  rw [Nat.toList_repr] at hc
  rw [Char.isAlphanum, Number.Decimal.isDigit_toDigits hc, Bool.or_true]

/-- Texts with commas between them are on one line. -/
theorem oneLine_intercalate {texts : List String} (h : ∀ text ∈ texts, OneLine text) :
    OneLine (", ".intercalate texts) := by
  induction texts with
  | nil => decide
  | cons first rest ih =>
    obtain ⟨hfirst, hrest⟩ := List.forall_mem_cons.1 h
    cases rest with
    | nil => simpa using hfirst
    | cons second rest =>
      rw [String.intercalate_cons_cons]
      exact oneLine_append.2 ⟨oneLine_append.2 ⟨hfirst, by decide⟩, ih hrest⟩

/-- A number is on one line. -/
theorem oneLine_number (x : Float) : OneLine (Number.text x) := by
  rw [OneLine, Number.text, String.toList_ofList]
  cases h : Number.magnitude x with
  | finite value => exact Number.notMem_characters_finite h rfl (by decide)
  | infinite =>
    rw [Number.characters_infinite h]
    cases Number.isNegative x <;> decide
  | nan =>
    rw [Number.characters_nan h]
    decide

/-- Lines can be told from their text if there is no newline in any of them. -/
theorem lines_unique {lines lines' : List String} (h : ∀ line ∈ lines, OneLine line)
    (h' : ∀ line ∈ lines', OneLine line)
    (heq : String.join (lines.map (· ++ "\n")) = String.join (lines'.map (· ++ "\n"))) :
    lines = lines' := by
  have hlist := congrArg String.toList heq
  have hwrite (lines : List String) : (String.join (lines.map (· ++ "\n"))).toList =
      (lines.flatMap fun line => line.toList ++ ['\n']) ++ [] := by
    rw [String.toList_join, List.append_nil, List.flatMap_map]
    simp
  rw [hwrite, hwrite] at hlist
  have hapart (line : String) (hline : OneLine line) :
      Apart (fun line => line.toList ++ ['\n']) OneLine (fun _ => True) line := by
    intro other r r' hother _ _ hsame
    rw [List.append_assoc, List.append_assoc] at hsame
    exact (segment_unique hline hother hsame).imp_left String.toList_inj.1
  have hframed : Framed (fun line : String => line.toList ++ ['\n']) (fun _ => True) (fun _ => True)
      (· = []) := ⟨by simp, by simp⟩
  exact (hframed.unique (fun _ _ => trivial) (fun line hline => hapart line (h line hline))
    (fun _ _ => trivial) h' rfl rfl hlist).1

namespace Naming

variable {names : Naming}

/-- The text of a value is on one line. -/
theorem Proper.oneLine_value (h : names.Proper) (v : ValueId) : OneLine (names.value v) := by
  obtain ⟨run, hv, hrun⟩ := h.exists_run v
  rw [OneLine, hv, List.mem_cons, not_or]
  exact ⟨by decide, fun hmem => absurd (hrun _ hmem) (by decide)⟩

/-- The text of a block is on one line. -/
theorem Proper.oneLine_block (h : names.Proper) (b : BlockId) : OneLine (names.block b) := by
  unfold block
  split
  · rename_i label hlabel
    have hword := oneLine_of_isAlphanum (h.labels label (List.mem_of_getElem? hlabel)).isAlphanum
    simp +decide [toString, hword]
  · simp +decide [toString, oneLine_repr]

/-- The text of an operation is on one line. -/
theorem Proper.oneLine_operation (h : names.Proper) (op : Operation) : OneLine (names.operation op) := by
  have hvalue := h.oneLine_value
  cases op with
  | constant x => simp +decide [operation, toString, oneLine_number]
  | arithmetic op => cases op <;> simp +decide [operation, Arithmetic.mnemonic, toString, hvalue]
  | compare op => cases op <;> simp +decide [operation, Comparison.mnemonic, toString, hvalue]
  | widen v => simp +decide [operation, toString, hvalue]
  | load slot => simp +decide [operation, toString, oneLine_repr]
  | phi incoming =>
    refine oneLine_append.2 ⟨by decide, oneLine_intercalate (List.forall_mem_map.2 fun entry _ => ?_)⟩
    simp +decide [alternative_eq, hvalue, h.oneLine_block]

/-- No instruction has a newline in its text if callees have none. -/
theorem Proper.oneLine_instruction (h : names.Proper) {x : Instruction}
    (hx : x.Numbered names.parameters.length) : OneLine (names.instruction x) := by
  have hvalue := h.oneLine_value
  cases x with
  | assign target op => simp +decide [instruction_assign, hvalue, h.oneLine_operation]
  | store slot v => simp +decide [instruction_store, hvalue, oneLine_repr]
  | call target callee values =>
    have hcallee : OneLine callee := hx.1.newline
    have harguments : OneLine (names.arguments values) := by
      rw [arguments_eq]
      exact oneLine_intercalate (List.forall_mem_map.2 fun v _ => oneLine_append.2 ⟨by decide, hvalue v⟩)
    simp +decide [instruction_call, hvalue, hcallee, harguments]

/-- The text of a terminator is on one line. -/
theorem Proper.oneLine_terminator (h : names.Proper) (t : Option Terminator) :
    OneLine (names.terminator t) := by
  have hvalue := h.oneLine_value
  have hblock := h.oneLine_block
  cases t with
  | none =>
    have htext : OneLine "<unterminated>" := by decide
    exact htext
  | some t =>
    cases t with
    | branch b => simp +decide [terminator_branch, hblock]
    | branchIf v b c => simp +decide [terminator_branchIf, hvalue, hblock]
    | ret v => simp +decide [terminator_ret, hvalue]

end Naming

/-- A line and the lines that belong to it. -/
abbrev Paragraph : Type := String × List String

/-- The lines of a paragraph. All but the first one are indented. -/
def paragraphLines (paragraph : Paragraph) : List String :=
  paragraph.1 :: paragraph.2.map ("  " ++ ·)

/-- The line begins with a letter. -/
def Lettered (line : String) : Prop := ∃ first rest, line.toList = first :: rest ∧ first.isAlpha

/-- A closing brace begins with no letter. -/
theorem Lettered.ne_brace {line : String} (h : Lettered line) : line ≠ "\x7d" := by
  obtain ⟨first, rest, hline, halpha⟩ := h
  rintro rfl
  cases hline
  exact absurd halpha (by decide)

/-- The line is indented. -/
def Indented (line : String) : Prop := ∃ rest, line = "  " ++ rest

/-- A line that begins with a letter is not indented. -/
theorem Lettered.not_indented {line : String} (h : Lettered line) : ¬ Indented line := by
  obtain ⟨first, behind, hline, halpha⟩ := h
  rintro ⟨rest, rfl⟩
  rw [String.toList_append] at hline
  cases hline
  exact absurd halpha (by decide)

/-- A closing brace is not indented. -/
theorem not_indented_brace : ¬ Indented "\x7d" := by
  rintro ⟨rest, hrest⟩
  have hfirst := congrArg (·.toList.head?) hrest
  simp at hfirst

/-- Behind a paragraph comes another one, or a closing brace. -/
theorem framed_paragraphs : Framed paragraphLines (fun paragraph => Lettered paragraph.1)
    (fun lines => ∀ line ∈ lines.head?, ¬ Indented line) (· = ["\x7d"]) where
  begins hlettered _ hend := hlettered.ne_brace (List.cons.inj hend).1
  fits := by
    rintro paragraphs hlettered _ rfl
    cases paragraphs with
    | nil =>
      rintro _ ⟨⟩
      exact not_indented_brace
    | cons paragraph paragraphs =>
      rintro _ ⟨⟩
      exact (hlettered paragraph List.mem_cons_self).not_indented

/-- A paragraph ends where a line is not indented. -/
theorem apart_paragraph (paragraph : Paragraph) :
    Apart paragraphLines (fun _ => True) (fun lines => ∀ line ∈ lines.head?, ¬ Indented line)
      paragraph := by
  intro other r r' _ hr hr' hsame
  obtain ⟨hfirst, hbehind⟩ := List.cons.inj hsame
  have hindented (lines : List String) : ∀ line ∈ lines.map ("  " ++ ·), Indented line :=
    List.forall_mem_map.2 fun line _ => ⟨line, rfl⟩
  obtain ⟨hlines, hrest⟩ := run_unique (hindented _) (hindented _) hr hr' hbehind
  have hsame := map_unique (fun a _ b _ hab => (String.append_right_inj _).1 hab) hlines
  exact ⟨Prod.ext hfirst hsame, hrest⟩

/-- Paragraphs can be told from their lines, up to a closing brace. -/
theorem paragraphs_unique {paragraphs paragraphs' : List Paragraph}
    (h : ∀ paragraph ∈ paragraphs, Lettered paragraph.1)
    (h' : ∀ paragraph ∈ paragraphs', Lettered paragraph.1)
    (heq : paragraphs.flatMap paragraphLines ++ ["\x7d"] =
      paragraphs'.flatMap paragraphLines ++ ["\x7d"]) : paragraphs = paragraphs' :=
  (framed_paragraphs.unique h (fun paragraph _ => apart_paragraph paragraph) h' (fun _ _ => trivial)
    rfl rfl heq).1

/-- The text of a slot. -/
def slotLine (slot : String × Nat) : String := s!"${slot.2} = alloca double ; {slot.1}"

/-- The text of a slot is its number and its name. -/
theorem slotLine_eq (slot : String × Nat) :
    slotLine slot = "$" ++ (slot.2.repr ++ (" = alloca double ; " ++ slot.1)) := by
  rw [← String.toList_inj]
  simp [slotLine, toString]

/-- The names of slots can be told from their texts. -/
theorem slotLines_inj {body body' : Body} (h : body.slotLines = body'.slotLines) :
    body.slots = body'.slots := by
  refine List.ext_getElem? fun i => ?_
  have hline (body : Body) : body.slotLines[i]? = body.slots[i]?.map fun name => slotLine (name, i) := by
    change (body.slots.zipIdx.map slotLine)[i]? = _
    rw [List.getElem?_map, List.getElem?_zipIdx, Option.map_map, Nat.zero_add]
    rfl
  have hsame := congrArg (·[i]?) h
  simp only [hline] at hsame
  refine Option.map_injective (fun a b hab => ?_) hsame
  simpa only [slotLine_eq, String.append_right_inj] using hab

namespace Naming

/-- The lines of a block behind its label and the slots. -/
def code (names : Naming) (block : Block) : List String :=
  block.instructions.map names.instruction ++ [names.terminator block.terminator]

/-- The paragraph of a block. -/
def paragraph (names : Naming) (slots : List String) (block : Block) : Paragraph :=
  (block.label ++ ":", slots ++ names.code block)

/-- The lines of a block are those of its paragraph. -/
theorem blockLines_eq (names : Naming) (slots : List String) :
    names.blockLines slots = fun block => paragraphLines (names.paragraph slots block) := by
  funext block
  simp only [blockLines, paragraphLines, paragraph, code, List.append_assoc, toString]

/-- Everything in the block can be told from its lines. -/
structure ShowsBlock (names : Naming) (block : Block) : Prop where
  label : IsWord block.label
  instructions : ∀ x ∈ block.instructions, names.Shows x
  terminator : ∃ t, block.terminator = some t ∧
    (∀ operand ∈ t.operands, names.parameters.length ≤ operand.1.index) ∧
    ∀ target ∈ t.targets, target.index < names.labels.length

/-- The line of a slot. -/
def IsSlotLine (line : String) : Prop := line.toList.head? = some '$'

/-- The lines of slots are such lines. -/
theorem isSlotLine_of_mem {body : Body} : ∀ line ∈ body.slotLines, IsSlotLine line := by
  change ∀ line ∈ body.slots.zipIdx.map slotLine, IsSlotLine line
  refine List.forall_mem_map.2 fun slot _ => ?_
  rw [IsSlotLine, slotLine_eq, String.toList_append]
  rfl

section

variable {names : Naming}

/-- An instruction does not look like a slot. -/
theorem Proper.not_isSlotLine_instruction (h : names.Proper) (x : Instruction) :
    ¬ IsSlotLine (names.instruction x) := by
  have hvalue (v : ValueId) (rest : String) : ¬ IsSlotLine (names.value v ++ rest) := by
    obtain ⟨run, hv, -⟩ := h.exists_run v
    simp [IsSlotLine, hv]
  cases x with
  | assign target op => exact instruction_assign .. ▸ hvalue _ _
  | store slot v => simp [IsSlotLine, instruction_store]
  | call target callee values => exact instruction_call .. ▸ hvalue _ _

/-- A terminator does not look like a slot. -/
theorem not_isSlotLine_terminator (t : Terminator) : ¬ IsSlotLine (names.terminator (some t)) := by
  cases t with
  | branch b => simp [IsSlotLine, terminator_branch]
  | branchIf v b c => simp [IsSlotLine, terminator_branchIf]
  | ret v => simp [IsSlotLine, terminator_ret]

/-- What comes behind the slots does not look like one. -/
theorem Proper.not_isSlotLine (h : names.Proper) {block : Block} (hblock : names.ShowsBlock block) :
    ∀ line ∈ (names.code block).head?, ¬ IsSlotLine line := by
  obtain ⟨t, hterminator, -⟩ := hblock.terminator
  rw [code, hterminator]
  cases block.instructions with
  | nil =>
    rintro _ ⟨⟩
    exact not_isSlotLine_terminator t
  | cons x rest =>
    rintro _ ⟨⟩
    exact h.not_isSlotLine_instruction x

/-- What a block does can be told from its lines. -/
theorem Proper.code_inj (h : names.Proper) {block block' : Block} (hblock : names.ShowsBlock block)
    (hblock' : names.ShowsBlock block') (heq : names.code block = names.code block') :
    block.instructions = block'.instructions ∧ block.terminator = block'.terminator := by
  obtain ⟨t, hterminator, hvalues, htargets⟩ := hblock.terminator
  obtain ⟨t', hterminator', -, htargets'⟩ := hblock'.terminator
  obtain ⟨hinstructions, hlast⟩ := List.append_inj' heq rfl
  constructor
  · refine map_unique (fun x hx x' hx' => ?_) hinstructions
    exact h.instruction_inj (hblock.instructions x hx) (hblock'.instructions x' hx')
  · rw [hterminator, hterminator'] at hlast ⊢
    rw [h.terminator_inj hvalues htargets htargets' (List.cons.inj hlast).1]

/-- A block can be told from its paragraph, and so can the slots in front of its instructions. -/
theorem Proper.paragraph_inj (h : names.Proper) {slots slots' : List String} {block block' : Block}
    (hslots : ∀ line ∈ slots, IsSlotLine line) (hslots' : ∀ line ∈ slots', IsSlotLine line)
    (hblock : names.ShowsBlock block) (hblock' : names.ShowsBlock block')
    (heq : names.paragraph slots block = names.paragraph slots' block') :
    slots = slots' ∧ block = block' := by
  obtain ⟨hlabel, hlines⟩ := Prod.mk.inj heq
  obtain ⟨hslot, hcode⟩ := run_unique hslots hslots' (h.not_isSlotLine hblock)
    (h.not_isSlotLine hblock') hlines
  obtain ⟨hinstructions, hterminator⟩ := h.code_inj hblock hblock' hcode
  cases block
  cases block'
  cases (String.append_left_inj _).1 hlabel
  cases hinstructions
  cases hterminator
  exact ⟨hslot, rfl⟩

end

end Naming

/-- How a function with the body shows its values and blocks. -/
def Body.naming (parameters : List String) (body : Body) : Naming :=
  ⟨parameters, body.blocks.map Block.label⟩

/-- The paragraphs of a body. The slots are in the first one. -/
def Body.paragraphs (names : Naming) (body : Body) : List Paragraph :=
  match body.blocks with
  | [] => []
  | entry :: others => names.paragraph body.slotLines entry :: others.map (names.paragraph [])

/-- The lines of a body are those of its paragraphs. -/
theorem Body.lines_eq (parameters : List String) (body : Body) :
    body.lines parameters = (body.paragraphs (body.naming parameters)).flatMap paragraphLines := by
  unfold lines paragraphs naming
  split
  · rename_i hblocks
    rw [hblocks]
    rfl
  · rename_i entry others hblocks
    simp only [hblocks, List.flatMap_cons, List.flatMap_map, Naming.blockLines_eq]

/-- Each paragraph of a body begins with the label of its block. -/
theorem Body.map_fst_paragraphs (names : Naming) (body : Body) :
    (body.paragraphs names).map Prod.fst = (body.blocks.map Block.label).map (· ++ ":") := by
  unfold paragraphs
  split
  · rename_i hblocks
    rw [hblocks]
    rfl
  · rename_i entry others hblocks
    rw [hblocks, List.map_cons, List.map_map, List.map_cons, List.map_cons, List.map_map]
    rfl

/-- The paragraphs of a body are those of its blocks. -/
theorem Body.exists_of_mem_paragraphs {names : Naming} {body : Body} {paragraph : Paragraph}
    (h : paragraph ∈ body.paragraphs names) : ∃ block ∈ body.blocks, ∃ slots,
      slots ⊆ body.slotLines ∧ paragraph = names.paragraph slots block := by
  unfold paragraphs at h
  split at h
  · cases h
  · rename_i entry others hblocks
    rw [hblocks]
    rcases List.mem_cons.1 h with rfl | h
    · exact ⟨entry, List.mem_cons_self, body.slotLines, List.Subset.refl _, rfl⟩
    · obtain ⟨block, hblock, rfl⟩ := List.mem_map.1 h
      exact ⟨block, List.mem_cons_of_mem _ hblock, [], List.nil_subset _, rfl⟩

/-- The text of a parameter. -/
def parameterText (name : String) : String := "double " ++ ("%" ++ name)

/-- The first line of a function. -/
def header (name : String) (parameters : List String) : String :=
  "define double @" ++ (name ++ ("(" ++ (", ".intercalate (parameters.map parameterText) ++ ") \x7b")))

/-- A function is written as its first line, its paragraphs and a closing brace. -/
theorem Function.lines_eq {f : Function} {body : Body} (h : f.body = some body) :
    f.lines = header f.name f.parameters ::
      ((body.paragraphs (body.naming f.parameters)).flatMap paragraphLines ++ ["\x7d"]) := by
  have hparameter : (fun p => "double %" ++ p) = parameterText := by
    funext p
    rw [← String.toList_inj]
    simp [parameterText]
  simp only [lines, h, hparameter, ← Body.lines_eq, header, toString, String.append_assoc,
    List.cons_append]

/-- The name and the parameters of a function can be told from its first line. -/
theorem header_inj {name name' : String} {parameters parameters' : List String}
    (hname : IsCallee name) (hname' : IsCallee name') (hparameters : ∀ p ∈ parameters, IsWord p)
    (hparameters' : ∀ p ∈ parameters', IsWord p)
    (heq : header name parameters = header name' parameters') :
    name = name' ∧ parameters = parameters' := by
  have hapart (p : String) (hp : IsWord p) :
      Apart (fun p => (parameterText p).toList) IsWord Cut p := by
    refine Naming.apart_of_text fun {q rest rest'} hq hrest hrest' hsame => ?_
    simp only [parameterText, String.append_assoc, String.append_right_inj] at hsame
    have hlist := congrArg String.toList hsame
    rw [String.toList_append, String.toList_append] at hlist
    obtain ⟨hpq, hbehind⟩ := run_unique hp.isAlphanum hq.isAlphanum hrest hrest' hlist
    exact ⟨String.toList_inj.1 hpq, String.toList_inj.1 hbehind⟩
  have hopen (p : String) (r : List Char) : ¬ Naming.Closed ((parameterText p).toList ++ r) := by
    rw [parameterText, String.toList_append]
    exact fun hclosed => absurd (hclosed 'd' rfl) (by decide)
  obtain ⟨rfl, hbehind⟩ := hname.unique hname'
    (Naming.head?_separated_ne (fun p => ⟨_, rfl⟩) rfl) (Naming.head?_separated_ne (fun p => ⟨_, rfl⟩) rfl)
    ((String.append_right_inj _).1 heq)
  have hlist := congrArg String.toList ((String.append_left_inj _).1 hbehind)
  exact ⟨rfl, (Naming.separated_unique hapart hopen hparameters hparameters' Naming.closed_nil
    Naming.closed_nil (congrArg (· ++ []) hlist)).1⟩

/-- The number of values follows from what the instructions compute. -/
theorem Body.Named.valueCount_eq {arity : Nat} {body body' : Body} (h : body.Named arity)
    (h' : body'.Named arity) (hblocks : body.blocks = body'.blocks) :
    body.valueCount = body'.valueCount := by
  -- The first value that only one of the bodies has would have to be computed in both of them.
  have hle {body body' : Body} (h : body.Named arity) (h' : body'.Named arity)
      (hblocks : body.blocks = body'.blocks) : body.valueCount ≤ body'.valueCount := by
    by_contra hlt
    have hvalue := h.destinations ⟨body'.valueCount⟩
    rw [hblocks, h'.destinations, if_neg (by simp), if_pos ⟨h'.values, by simpa using hlt⟩] at hvalue
    cases hvalue
  exact Nat.le_antisymm (hle h h' hblocks) (hle h' h hblocks.symm)

/-- Everything in the function, whose body is the given one, can be told from its listing. -/
structure Function.Legible (f : Function) (body : Body) : Prop where
  defined : f.body = some body
  name : IsCallee f.name
  parameters : ∀ name ∈ f.parameters, IsWord name
  slots : ∀ name ∈ body.slots, IsWord name
  nonempty : body.blocks ≠ []
  named : body.Named f.arity
  blocks : ∀ block ∈ body.blocks, (body.naming f.parameters).ShowsBlock block

namespace Function.Legible

variable {f : Function} {body : Body}

/-- The values and blocks of a legible function are shown properly. -/
theorem proper (h : f.Legible body) : (body.naming f.parameters).Proper where
  parameters := h.parameters
  labels := List.forall_mem_map.2 fun block hblock => (h.blocks block hblock).label
  nodup := h.named.labels

/-- Every paragraph begins with a label. -/
theorem lettered (h : f.Legible body) :
    ∀ paragraph ∈ body.paragraphs (body.naming f.parameters), Lettered paragraph.1 := by
  intro paragraph hmem
  obtain ⟨block, hblock, slots, -, rfl⟩ := Body.exists_of_mem_paragraphs hmem
  obtain ⟨first, rest, hlabel, halpha, -⟩ := (h.blocks block hblock).label
  exact ⟨first, rest ++ [':'], by simp [Naming.paragraph, hlabel], halpha⟩

/-- No line of the listing has a newline in it. -/
theorem oneLine (h : f.Legible body) : ∀ line ∈ f.lines, OneLine line := by
  have hword {name : String} (hname : IsWord name) : OneLine name := oneLine_of_isAlphanum hname.isAlphanum
  have hslots : ∀ line ∈ body.slotLines, OneLine line := by
    change ∀ line ∈ body.slots.zipIdx.map slotLine, OneLine line
    refine List.forall_mem_map.2 fun slot hslot => ?_
    have hname := hword (h.slots slot.1 (List.fst_mem_of_mem_zipIdx hslot))
    simp +decide [slotLine_eq, oneLine_repr, hname]
  rw [lines_eq h.defined]
  refine List.forall_mem_cons.2
    ⟨?_, List.forall_mem_append.2 ⟨?_, List.forall_mem_singleton.2 (by decide)⟩⟩
  · have hparameters : OneLine (", ".intercalate (f.parameters.map parameterText)) :=
      oneLine_intercalate (List.forall_mem_map.2 fun p hp => by
        have hname := hword (h.parameters p hp)
        simp +decide [parameterText, hname])
    have hname : OneLine f.name := h.name.newline
    simp +decide [header, hname, hparameters]
  · intro line hline
    obtain ⟨paragraph, hmem, hline⟩ := List.mem_flatMap.1 hline
    obtain ⟨block, hblock, slots, hsubset, rfl⟩ := Body.exists_of_mem_paragraphs hmem
    have hshows := h.blocks block hblock
    rcases List.mem_cons.1 hline with rfl | hline
    · exact oneLine_append.2 ⟨hword hshows.label, by decide⟩
    · obtain ⟨inner, hinner, rfl⟩ := List.mem_map.1 hline
      refine oneLine_append.2 ⟨by decide, ?_⟩
      rcases List.mem_append.1 hinner with hinner | hinner
      · exact hslots inner (hsubset hinner)
      · rcases List.mem_append.1 hinner with hinner | hinner
        · obtain ⟨x, hx, rfl⟩ := List.mem_map.1 hinner
          exact h.proper.oneLine_instruction (hshows.instructions x hx).numbered
        · rw [List.mem_singleton.1 hinner]
          exact h.proper.oneLine_terminator _

end Function.Legible

/-- Bodies are equal if their paragraphs are, where values and blocks are shown in the same way. -/
theorem Body.eq_of_paragraphs_eq {names : Naming} (hnames : names.Proper) {arity : Nat} {body body' : Body}
    (hbody : body.blocks ≠ []) (hbody' : body'.blocks ≠ []) (hnamed : body.Named arity)
    (hnamed' : body'.Named arity) (hblocks : ∀ block ∈ body.blocks, names.ShowsBlock block)
    (hblocks' : ∀ block ∈ body'.blocks, names.ShowsBlock block)
    (heq : body.paragraphs names = body'.paragraphs names) : body = body' := by
  obtain ⟨entry, others, hcons⟩ := List.exists_cons_of_ne_nil hbody
  obtain ⟨entry', others', hcons'⟩ := List.exists_cons_of_ne_nil hbody'
  have hparagraphs {body : Body} {entry : Block} {others : List Block}
      (hcons : body.blocks = entry :: others) : body.paragraphs names =
        names.paragraph body.slotLines entry :: others.map (names.paragraph []) := by
    rw [paragraphs, hcons]
  rw [hparagraphs hcons, hparagraphs hcons'] at heq
  rw [hcons] at hblocks
  rw [hcons'] at hblocks'
  obtain ⟨hentry, hothers⟩ := List.forall_mem_cons.1 hblocks
  obtain ⟨hentry', hothers'⟩ := List.forall_mem_cons.1 hblocks'
  obtain ⟨hfirst, hrest⟩ := List.cons.inj heq
  obtain ⟨hslots, hentries⟩ := hnames.paragraph_inj Naming.isSlotLine_of_mem Naming.isSlotLine_of_mem
    hentry hentry' hfirst
  have hlater : others = others' := map_unique (fun block hblock block' hblock' hsame =>
    (hnames.paragraph_inj (List.forall_mem_nil _) (List.forall_mem_nil _) (hothers block hblock)
      (hothers' block' hblock') hsame).2) hrest
  have hsame : body.blocks = body'.blocks := by rw [hcons, hcons', hentries, hlater]
  have hcount := hnamed.valueCount_eq hnamed' hsame
  have hnames := slotLines_inj hslots
  cases body
  cases body'
  cases hsame
  cases hcount
  cases hnames
  rfl

/-- Functions are equal if their listings are. -/
theorem Function.Legible.eq_of_listing_eq {f f' : Function} {body body' : Body} (h : f.Legible body)
    (h' : f'.Legible body') (heq : f.listing = f'.listing) : f = f' := by
  have hlines := lines_unique h.oneLine h'.oneLine heq
  rw [lines_eq h.defined, lines_eq h'.defined] at hlines
  obtain ⟨hheader, hparagraphs⟩ := List.cons.inj hlines
  obtain ⟨hname, hparameters⟩ := header_inj h.name h'.name h.parameters h'.parameters hheader
  have hsame := paragraphs_unique h.lettered h'.lettered hparagraphs
  have hlabels : body.blocks.map Block.label = body'.blocks.map Block.label := by
    have hfirst := congrArg (List.map Prod.fst) hsame
    rw [Body.map_fst_paragraphs, Body.map_fst_paragraphs] at hfirst
    exact map_unique (fun a _ b _ hab => (String.append_left_inj _).1 hab) hfirst
  have hnaming : body'.naming f'.parameters = body.naming f.parameters := by
    rw [Body.naming, Body.naming, hlabels, hparameters]
  have harity : f'.arity = f.arity := congrArg List.length hparameters.symm
  have hnamed' := harity ▸ h'.named
  have hblocks' := hnaming ▸ h'.blocks
  rw [hnaming] at hsame
  have hbody := Body.eq_of_paragraphs_eq h.proper h.nonempty h'.nonempty h.named hnamed' h.blocks
    hblocks' hsame
  have hdefined := h.defined
  have hdefined' := h'.defined
  cases f
  cases f'
  cases hname
  cases hparameters
  cases hbody
  cases hdefined
  cases hdefined'
  rfl

-- Parameters of the same name look alike in a listing, so no function that returns one of them is
-- legible.
example :
    let f (i : Nat) : Function := ⟨"f", ["x", "x"], some ⟨[], [⟨"entry", [], some (.ret ⟨i⟩)⟩], 2⟩⟩
    (f 0).listing = (f 1).listing ∧ f 0 ≠ f 1 := by decide +kernel

end Kaleidoscope.Ssa
