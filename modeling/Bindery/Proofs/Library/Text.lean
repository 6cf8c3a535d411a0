/-
Proofs.Library.Text -- the tokens of a module

The text of a module holds the bodies of its cells as they are, and the lexer that reads
it knows nothing of cells.  Still no body reaches into another one: the tokens of the
module are those of its parts, each read alone (`Module.tokenKeys`), and the tokens of a
body stand between the braces of the cell's own procedure.
-/
import Bindery.Proofs.Library.Image
import Bindery.Proofs.Library.Sentence

namespace Bindery

open List String Text

variable {s : String} {tokens : List Token} {behind : List Char} {cell : CellDefinition} {module : Module}

/-! ## The tokens of the parts -/

def literalKey (s : String) : Key :=
  (.string, Json.quote s)

def quoteListKeys (texts : List String) : List Key :=
  textKeys "[" ++ ((texts.map literalKey).intersperse (.mark ",") ++ textKeys "]")

/-- The tokens of a computation.  Those of a body stand between the braces of its
procedure. -/
def Computation.tokenKeys : Computation → List Key
  | .procedure isAsync isGenerator parameters body =>
    textKeys (procedureKeyword isAsync isGenerator) ++ .mark "(" ::
      ((parameters.map Key.name).intersperse (.mark ",") ++
        .mark ")" :: .mark openBrace :: (textKeys body ++ [.mark closeBrace]))
  | .valueOfControl => textKeys "(G, _) => G.input(_)"
  | .member name => textKeys "(_) => _[" ++ literalKey name :: textKeys "]"

def Definition.tokenKeys : Definition → List Key
  | .observed none inputs computation =>
    textKeys "  main.variable(observer()).define(" ++ (quoteListKeys inputs ++
      (textKeys ", " ++ (computation.tokenKeys ++ textKeys ");\n")))
  | .observed (some name) inputs computation =>
    textKeys "  main.variable(observer(" ++ literalKey name :: (textKeys ")).define(" ++
      literalKey name :: (textKeys ", " ++ (quoteListKeys inputs ++
        (textKeys ", " ++ (computation.tokenKeys ++ textKeys ");\n")))))
  | .hidden name inputs computation =>
    textKeys "  main.define(" ++ literalKey name :: (textKeys ", " ++ (quoteListKeys inputs ++
      (textKeys ", " ++ (computation.tokenKeys ++ textKeys ");\n"))))

def CellEntry.tokenKeys (entry : CellEntry) : List Key :=
  textKeys "  \x7bindex: " ++ (.number, toString entry.index) :: (textKeys ", names: " ++
    (quoteListKeys entry.names ++ (textKeys ", outputs: " ++ (quoteListKeys entry.outputs ++
      textKeys "\x7d,\n"))))

def CellDefinition.tokenKeys (cell : CellDefinition) : List Key :=
  (cell.definitions?.getD []).flatMap Definition.tokenKeys

def Module.tokenKeys (module : Module) : List Key :=
  textKeys "export const cells = [\n" ++ (module.directory.flatMap CellEntry.tokenKeys ++
    (textKeys "];\n\n" ++ (textKeys "export default function define(runtime, observer) \x7b\n" ++
      (textKeys "  const main = runtime.module();\n" ++
        (module.cells.flatMap CellDefinition.tokenKeys ++ textKeys "  return main;\n\x7d\n")))))

/-! ## Computations -/

def Computation.Lexed : Computation → Prop
  | .procedure _ _ parameters body =>
    (∀ name ∈ parameters, IsWord name) ∧ ∃ tokens, lexFrom {} body.toList = .ok tokens
  | .valueOfControl | .member _ => True

theorem textKeys_eq (done : lexFrom {} s.toList = .ok tokens) : textKeys s = tokens.map Token.key := by
  rw [textKeys, done]
  rfl

theorem gap_of_blanks {s : List Char} (blank : ∀ c ∈ s, isBlank c) : Gap true s := by
  induction s with
  | nil => exact .nil
  | cons c r ih =>
    exact .blank (blank c mem_cons_self) (ih fun d mem => blank d (.tail _ mem))

theorem blank_of_trim {s : List Char} (empty : (trim s).isEmpty) : ∀ c ∈ s, isBlank c := by
  obtain ⟨dropped, split, blanks⟩ := dropEnd_split isBlank (s.dropWhile isBlank)
  have nothing : dropEnd isBlank (s.dropWhile isBlank) = [] := isEmpty_iff.1 empty
  rw [nothing, nil_append] at split
  have whole := takeWhile_append_dropWhile (p := isBlank) (l := s)
  intro c mem
  rw [← whole] at mem
  rcases mem_append.1 mem with pre | back
  · exact all_eq_true.1 all_takeWhile c pre
  · exact blanks c (split ▸ back)

theorem carries_body {body : String} (done : lexFrom {} body.toList = .ok tokens) (behind : List Char) :
    Carries (if (trim body.toList).isEmpty then "\x7b\x7d" else "\x7b\n" ++ body ++ "\n\x7d").toList
      (.mark openBrace :: (textKeys body ++ [.mark closeBrace])) behind := by
  split
  · next empty =>
    obtain ⟨tokens', alone, none⟩ := lexFrom_of_carries (carries_gap (gap_of_blanks (blank_of_trim empty)) [])
    have braces : Plain [⟨[], .plain .punct ['\x7b']⟩, ⟨[], .plain .punct ['\x7d']⟩] behind :=
      .mark .nil (by decide) (.mark .nil (by decide) (.nil behind))
    rw [textKeys_eq alone, none]
    exact carries_plain braces
  · have braced := carries_braced (spells_of_lexFrom done) behind
    rw [← textKeys_eq done] at braced
    simpa using braced

theorem carries_keyword (isAsync isGenerator : Bool) {behind : List Char}
    (opens : behind.head? = some '(') :
    Carries (procedureKeyword isAsync isGenerator).toList
      (textKeys (procedureKeyword isAsync isGenerator)) behind := by
  refine carries_text _ ?_ ?_ (.inr (look_of_mark opens (by decide)))
  · revert isAsync isGenerator
    decide +kernel
  · revert isAsync isGenerator
    decide

theorem carries_parameters {params : List String} (words : ∀ n ∈ params, IsWord n)
    {behind : List Char} (closes : behind.head? = some ')') :
    Carries (", ".intercalate params).toList
      ((params.map Key.name).intersperse (.mark ",")) behind := by
  have ends : ∀ c ∈ [',', ')'], isWordPart c = false := forall_mem_of_all (by decide +kernel)
  refine carries_intercalate fun n mem r next => carries_name (words n mem) ?_
  rcases next with comma | rfl
  · rw [comma]
    exact ends ',' (by simp)
  · rw [closes]
    exact ends ')' (by simp)

/-- **A computation carries its tokens** in front of a closing parenthesis. -/
theorem carries_computation {computation : Computation} (lexed : computation.Lexed)
    {behind : List Char} (closes : behind.head? = some ')') :
    Carries computation.render.toList computation.tokenKeys behind := by
  cases computation with
  | procedure isAsync isGenerator params body =>
    obtain ⟨words, tokens, done⟩ := lexed
    have text : (Computation.procedure isAsync isGenerator params body).render.toList =
        (procedureKeyword isAsync isGenerator).toList ++ (['('] ++
          ((", ".intercalate params).toList ++ ([')'] ++ ([' '] ++
            (if (trim body.toList).isEmpty then "\x7b\x7d"
              else "\x7b\n" ++ body ++ "\n\x7d").toList)))) := by
      rw [Computation.render]
      split <;> simp
    have space : Gap true [' '] := .blank (by decide) .nil
    rw [text]
    refine (carries_keyword isAsync isGenerator rfl).append ?_
    refine (carries_mark (by decide) _).append ?_
    refine (carries_parameters words rfl).append ?_
    refine (carries_mark (by decide) _).append ?_
    exact (carries_gap space _).append (carries_body done _)
  | valueOfControl =>
    exact carries_text _ (by decide +kernel) (by decide) (.inr (look_of_mark closes (by decide)))
  | member name =>
    rw [Computation.render, String.toList_append, String.toList_append, List.append_assoc]
    refine (carries_text "(_) => _[" (by decide +kernel) (by decide) (.inr ?_)).append ?_
    · rw [List.append_assoc]
      exact look_of_literal name _
    · exact (carries_literal name _).append (carries_text "]" (by decide +kernel) (by decide)
        (.inr (look_of_mark closes (by decide))))

/-! ## Definitions and entries -/

theorem carries_quoteList (texts : List String) (look : Look behind false) :
    Carries (Json.quoteList texts).toList (quoteListKeys texts) behind := by
  have items : Carries (", ".intercalate (texts.map Json.quote)).toList
      (((texts.map Json.quote).map fun s => (TokenKind.string, s)).intersperse (.mark ","))
      ("]".toList ++ behind) := by
    refine carries_intercalate fun item mem r _ => ?_
    obtain ⟨s, -, rfl⟩ := List.mem_map.1 mem
    exact carries_literal s r
  have opening : Look ((", ".intercalate (texts.map Json.quote)).toList ++ "]".toList ++ behind)
      false := by
    rcases texts with _ | ⟨s, _ | ⟨next, r⟩⟩
    · exact look_of_mark (c := ']') rfl (by decide)
    · rw [List.map_singleton, String.intercalate_singleton, List.append_assoc]
      exact look_of_literal s _
    · rw [List.map_cons, List.map_cons, String.intercalate_cons_cons]
      simp only [String.toList_append, List.append_assoc]
      exact look_of_literal s _
  rw [List.map_map] at items
  rw [Json.quoteList, String.toList_append, String.toList_append, List.append_assoc]
  refine (carries_text "[" (by decide +kernel) (by decide) (.inr opening)).append ?_
  exact items.append (carries_text "]" (by decide +kernel) (by decide) (.inr look))

theorem look_of_quoteList (texts : List String) (r : List Char) :
    Look ((Json.quoteList texts).toList ++ r) false := by
  rw [Json.quoteList, String.toList_append, String.toList_append, List.append_assoc, List.append_assoc]
  exact look_of_mark (c := '[') rfl (by decide)

def Definition.computation : Definition → Computation
  | .observed _ _ computation | .hidden _ _ computation => computation

theorem carries_comma (r : List Char) : Carries ", ".toList (textKeys ", ") r :=
  carries_text ", " (by decide +kernel) (by decide) (.inl (by decide))

theorem carries_ending (inputs : List String) {computation : Computation}
    (lexed : computation.Lexed) (behind : List Char) :
    Carries ((Json.quoteList inputs).toList ++ (", ".toList ++ (computation.render.toList ++
      ");\n".toList))) (quoteListKeys inputs ++ (textKeys ", " ++ (computation.tokenKeys ++
        textKeys ");\n"))) behind := by
  refine (carries_quoteList inputs (look_of_mark (c := ',') rfl (by decide))).append ?_
  refine (carries_comma _).append ((carries_computation lexed rfl).append ?_)
  exact carries_text ");\n" (by decide +kernel) (by decide) (.inl (by decide))

/-- **A definition carries its tokens**, wherever it stands. -/
theorem carries_definition {definition : Definition} (lexed : definition.computation.Lexed)
    (behind : List Char) : Carries definition.render.toList definition.tokenKeys behind := by
  cases definition with
  | observed n inputs computation =>
    have ending := carries_ending inputs lexed behind
    cases n with
    | none =>
      unfold Definition.render Definition.tokenKeys
      simp only [String.toList_append, List.append_assoc]
      refine (carries_text "  main.variable(observer()).define(" (by decide +kernel)
        (by decide +kernel) (.inr ?_)).append ending
      rw [List.append_assoc]
      exact look_of_quoteList inputs _
    | some n =>
      unfold Definition.render Definition.tokenKeys
      simp only [String.toList_append, List.append_assoc]
      refine (carries_text "  main.variable(observer(" (by decide +kernel)
        (by decide +kernel) (.inr ?_)).append ?_
      · rw [List.append_assoc]
        exact look_of_literal n _
      refine (carries_literal n _).append ?_
      refine (carries_text ")).define(" (by decide +kernel) (by decide +kernel) (.inr ?_)).append ?_
      · rw [List.append_assoc]
        exact look_of_literal n _
      exact (carries_literal n _).append ((carries_comma _).append ending)
  | hidden n inputs computation =>
    unfold Definition.render Definition.tokenKeys
    simp only [String.toList_append, List.append_assoc]
    refine (carries_text "  main.define(" (by decide +kernel) (by decide +kernel) (.inr ?_)).append ?_
    · rw [List.append_assoc]
      exact look_of_literal n _
    exact (carries_literal n _).append ((carries_comma _).append (carries_ending inputs lexed behind))

/-- **An entry of the directory carries its tokens.** -/
theorem carries_entry (e : CellEntry) (behind : List Char) : Carries e.render.toList e.tokenKeys behind := by
  unfold CellEntry.render CellEntry.tokenKeys
  simp only [String.toList_append, List.append_assoc]
  refine (carries_text "  \x7bindex: " (by decide +kernel) (by decide) (.inl (by decide))).append ?_
  refine (carries_number e.index (look_of_mark (c := ',') rfl (by decide))).append ?_
  refine (carries_text ", names: " (by decide +kernel) (by decide) (.inl (by decide))).append ?_
  refine (carries_quoteList e.names (look_of_mark (c := ',') rfl (by decide))).append ?_
  refine (carries_text ", outputs: " (by decide +kernel) (by decide) (.inl (by decide))).append ?_
  refine (carries_quoteList e.outputs (look_of_mark (c := '\x7d') rfl (by decide))).append ?_
  exact carries_text "\x7d,\n" (by decide +kernel) (by decide) (.inl (by decide))

/-! ## Cells and modules -/

/-- The parameters of a cell's procedure are words, and its body has tokens. -/
structure CellDefinition.Lexed (cell : CellDefinition) : Prop where
  words : ∀ name ∈ cell.inputs, IsWord (parameterName name)
  body : ∃ tokens, lexFrom {} cell.body.toList = .ok tokens

theorem CellDefinition.Lexed.procedure (lexed : cell.Lexed) : cell.procedure.Lexed := by
  refine ⟨fun parameter mem => ?_, lexed.body⟩
  obtain ⟨n, inside, rfl⟩ := mem_map.1 mem
  exact lexed.words n inside

theorem CellDefinition.Lexed.definitions (lexed : cell.Lexed) {definitions : List Definition}
    (got : cell.definitions? = some definitions) :
    ∀ definition ∈ definitions, definition.computation.Lexed := by
  have procedure := lexed.procedure
  unfold CellDefinition.definitions? at got
  split at got
  · cases got
    simpa [Definition.computation] using procedure
  · cases got
    simpa [Definition.computation] using procedure
  · cases got
    simpa [Definition.computation, Computation.Lexed] using procedure
  · cases got
    intro definition mem
    rcases mem_cons.1 mem with rfl | mem
    · exact procedure
    · obtain ⟨n, -, rfl⟩ := mem_map.1 mem
      trivial
  · cases got

/-- **A cell carries its tokens**, and so those of its body. -/
theorem carries_cell (lexed : cell.Lexed) (rendered : cell.render? = some s) (behind : List Char)
    : Carries s.toList cell.tokenKeys behind := by
  obtain ⟨definitions, got, rfl⟩ := Option.map_eq_some_iff.1 rendered
  have line : Gap true ['\n'] := .blank (by decide) .nil
  rw [toList_append, CellDefinition.tokenKeys, got]
  exact (carries_gap line _).append (carries_join
    (fun definition mem r => carries_definition (lexed.definitions got definition mem) r)
    behind)

theorem carries_cells {cs : List CellDefinition} (lexed : ∀ cell ∈ cs, cell.Lexed) {texts : List String}
    (rendered : cs.mapM CellDefinition.render? = some texts) (behind : List Char) :
    Carries (String.join texts).toList (cs.flatMap CellDefinition.tokenKeys) behind := by
  induction cs generalizing texts with
  | nil =>
    cases rendered
    exact carries_gap .nil behind
  | cons cell r ih =>
    rw [mapM_cons] at rendered
    obtain ⟨s, here, rendered⟩ := Option.bind_eq_some_iff.1 rendered
    obtain ⟨texts', later, done⟩ := Option.bind_eq_some_iff.1 rendered
    cases done
    rw [join_cons, toList_append]
    exact (carries_cell (lexed cell mem_cons_self) here _).append
      (ih (fun other mem => lexed other (.tail _ mem)) later)

theorem infix_flatMap {α : Type} {items : List α} {item : α} (mem : item ∈ items)
    (ks : α → List Key) : ks item <:+: items.flatMap ks :=
  infix_of_mem_flatten (mem_map_of_mem mem)

theorem Definition.infix_tokenKeys (definition : Definition) :
    definition.computation.tokenKeys <:+: definition.tokenKeys := by
  have ending (inputs : List String) (computation : Computation) : computation.tokenKeys <:+:
      quoteListKeys inputs ++ (textKeys ", " ++ (computation.tokenKeys ++ textKeys ");\n")) :=
    ((prefix_append _ _).isInfix.trans (suffix_append _ _).isInfix).trans (suffix_append _ _).isInfix
  cases definition with
  | observed name inputs computation =>
    unfold Definition.tokenKeys
    cases name with
    | none => exact (ending inputs computation).trans (suffix_append _ _).isInfix
    | some name =>
      refine (ending inputs computation).trans ?_
      refine (suffix_append (textKeys ", ") _).isInfix.trans ?_
      refine (suffix_cons (literalKey name) _).isInfix.trans ?_
      refine (suffix_append (textKeys ")).define(") _).isInfix.trans ?_
      refine (suffix_cons (literalKey name) _).isInfix.trans ?_
      exact (suffix_append _ _).isInfix
  | hidden name inputs computation =>
    unfold Definition.tokenKeys
    refine (ending inputs computation).trans ?_
    refine (suffix_append (textKeys ", ") _).isInfix.trans ?_
    refine (suffix_cons (literalKey name) _).isInfix.trans ?_
    exact (suffix_append _ _).isInfix

theorem CellDefinition.infix_procedure (defined : cell.render?.isSome) :
    cell.procedure.tokenKeys <:+: cell.tokenKeys := by
  obtain ⟨s, rendered⟩ := Option.isSome_iff_exists.1 defined
  obtain ⟨definitions, got, -⟩ := Option.map_eq_some_iff.1 rendered
  obtain ⟨definition, mem, eq⟩ : ∃ definition ∈ definitions,
      definition.computation = cell.procedure := by
    unfold CellDefinition.definitions? at got
    split at got
    all_goals cases got
    all_goals exact ⟨_, mem_cons_self, rfl⟩
  rw [CellDefinition.tokenKeys, got, ← eq]
  exact definition.infix_tokenKeys.trans (infix_flatMap mem Definition.tokenKeys)

theorem Module.infix_procedure (rendered : module.render? = some s)
    (mem : cell ∈ module.cells) : cell.procedure.tokenKeys <:+: module.tokenKeys := by
  obtain ⟨texts, cs, -⟩ := Option.bind_eq_some_iff.1 rendered
  obtain ⟨_, defined⟩ := (mem_of_mapM cs).1 cell mem
  refine (CellDefinition.infix_procedure (Option.isSome_of_eq_some defined)).trans ?_
  refine (infix_flatMap mem CellDefinition.tokenKeys).trans ?_
  unfold Module.tokenKeys
  simp only [← List.append_assoc]
  exact (List.suffix_append _ _).isInfix.trans (List.prefix_append _ _).isInfix

theorem carries_behind_header {name : String} (line : '\n' ∉ name.toList) {s : List Char}
    {ks : List Key} (carries : Carries s ks behind) :
    Carries ("// Generated by tessera from the \"".toList ++ (name.toList ++
      ("\" notebook. Do not edit.\n\n".toList ++ s))) ks behind := by
  have stays : '\n' ∉ " Generated by tessera from the \"".toList ++ (name.toList ++
      "\" notebook. Do not edit.".toList) := by
    simp only [mem_append, not_or]
    exact ⟨by decide +kernel, line, by decide +kernel⟩
  have feeds : Gap true ['\n', '\n'] := .blank (by decide) (.blank (by decide) .nil)
  have whole := (carries_gap (Gap.lineEnd stays feeds) (s ++ behind)).append carries
  simpa using whole

/-- **A module has the tokens of its parts.** -/
theorem lexFrom_module (lexed : ∀ cell ∈ module.cells, cell.Lexed)
    (line : '\n' ∉ module.libraryName.toList) (rendered : module.render? = some s) :
    ∃ tokens, lexFrom {} s.toList = .ok tokens ∧ tokens.map Token.key = module.tokenKeys := by
  obtain ⟨texts, cs, done⟩ := Option.bind_eq_some_iff.1 rendered
  cases done
  refine lexFrom_of_carries ?_
  unfold Module.tokenKeys
  simp only [String.toList_append, List.append_assoc]
  refine carries_behind_header line ?_
  refine (carries_text "export const cells = [\n" (by decide +kernel) (by decide +kernel)
    (.inl (by decide +kernel))).append ?_
  refine (carries_join (fun e _ r => carries_entry e r) _).append ?_
  refine (carries_text "];\n\n" (by decide +kernel) (by decide +kernel) (.inl (by decide +kernel))).append ?_
  refine (carries_text "export default function define(runtime, observer) \x7b\n"
    (by decide +kernel) (by decide +kernel) (.inl (by decide +kernel))).append ?_
  refine (carries_text "  const main = runtime.module();\n" (by decide +kernel) (by decide +kernel)
    (.inl (by decide +kernel))).append ?_
  refine (carries_cells lexed cs _).append ?_
  exact carries_text "  return main;\n\x7d\n" (by decide +kernel) (by decide +kernel)
    (.inl (by decide +kernel))

/-! ## Generated libraries -/

theorem Script.lexed_of_compile {cell : SourceCell} {compiled : CompiledCell}
    (done : Script.compile cell = .ok compiled) :
    (∀ n ∈ compiled.inputs, IsWord (parameterName n)) ∧
      ∃ tokens, lexFrom {} compiled.body.toList = .ok tokens := by
  obtain ⟨tokens, imports, body, bodyTokens, -, -, -, relexed, rfl⟩ := Script.compile_eq_ok.1 done
  have lexed : lexFrom {} body = .ok bodyTokens := Except.mapError_eq_ok.1 relexed
  constructor
  · intro n mem
    obtain ⟨reference, inside, rfl⟩ := mem_map.1 (mem_filter.1 mem).1
    have named := (Scope.analyze_references bodyTokens).2 reference inside
    rw [parameterName_inputName (space_not_mem_of_hasName relexed named)]
    obtain ⟨i, t, got, ident, rfl⟩ := named
    rw [TokenSeq.get?_ofList] at got
    exact isWord_of_mem_lexFrom lexed t (mem_of_getElem? got) ident
  · obtain ⟨tokens', done', -⟩ := lexFrom_of_spells (spells_assemble lexed cell
      (Form.detect tokens cell.isView) imports)
    exact ⟨tokens', done'⟩

/-- **No script cell swallows another one.**  The text of a library of script cells can be
lexed, unless the name of the library breaks the line it stands in.  Every body has tokens
by itself, and just these stand in the text of the module between the braces of the cell's
own procedure.  All tokens of the text are those of its parts, each read alone. -/
theorem lexFrom_generate (cells : List CompiledCell)
    (compiled : ∀ cell ∈ cells, ∃ source : SourceCell,
      source.language = .script ∧ source.compile = .ok cell)
    {name : String} (line : '\n' ∉ name.toList) {workspace : List String} {fallback : String}
    {library : Library}
    (generated : Library.generate cells name workspace fallback = .ok library) :
    ∃ tokens, lexFrom {} library.moduleText.toList = .ok tokens ∧
      tokens.map Token.key = library.module.tokenKeys ∧
      ∀ cell ∈ cells, ∃ (inputs : List String) (bodyTokens : List Token),
        inputs.Sublist cell.inputs ∧
        lexFrom {} cell.body.toList = .ok bodyTokens ∧
        (textKeys (procedureKeyword cell.isAsync cell.isGenerator) ++ .mark "(" ::
          (((inputs.map parameterName).map Key.name).intersperse (.mark ",") ++
            .mark ")" :: .mark openBrace ::
              (bodyTokens.map Token.key ++ [.mark closeBrace]))) <:+: tokens.map Token.key := by
  have lexed : ∀ cell ∈ cells, (∀ name ∈ cell.inputs, IsWord (parameterName name)) ∧
      ∃ tokens, lexFrom {} cell.body.toList = .ok tokens := by
    intro cell member
    obtain ⟨source, script, done⟩ := compiled cell member
    rw [SourceCell.compile, script] at done
    exact Script.lexed_of_compile (Except.mapError_eq_ok.1 done)
  obtain ⟨-, built, rendered, -⟩ := Library.generate_eq_ok.1 generated
  have parts : ∀ cell ∈ library.module.cells, cell.Lexed := by
    intro cell member
    rw [built] at member
    obtain ⟨resolved, inside, rfl⟩ := List.mem_map.1 member
    obtain ⟨original, among, rfl⟩ := List.mem_map.1 (List.mem_mergeSort.1 inside)
    obtain ⟨words, body⟩ := lexed original (List.mem_mergeSort.1 among)
    exact ⟨fun name member => words name (List.mem_filter.1 member).1, body⟩
  have named : library.module.libraryName = name := by rw [built, Module.ofCells]
  obtain ⟨tokens, done, keys⟩ := lexFrom_module parts (named ▸ line) rendered
  refine ⟨tokens, done, keys, fun cell member => ?_⟩
  obtain ⟨-, bodyTokens, body⟩ := lexed cell member
  have defined : (cell.resolveAmong (inDocumentOrder cells)).toDefinition ∈ library.module.cells := by
    rw [built]
    exact List.mem_map_of_mem (List.mem_mergeSort.2
      (List.mem_map_of_mem (List.mem_mergeSort.2 member)))
  have procedure := Module.infix_procedure rendered defined
  rw [CellDefinition.procedure, Computation.tokenKeys, ← keys] at procedure
  exact ⟨_, bodyTokens, List.filter_sublist, body, textKeys_eq body ▸ procedure⟩

/-- A definition that ends in a comment and holds a brace in a template, and an expression
with a brace and a slash in a regular expression. -/
theorem lexFrom_generate_braces :
    let quoted : CompiledCell := ⟨1, ["a"], [], "return (\n\x60\x7d\x60 // \"\n);", [], [],
      .single, false, false⟩
    let tested : CompiledCell := ⟨2, [], ["a"], "return (\n/[/\x7b]/.test(a)\n);", [], [],
      .anonymous, false, false⟩
    let keys : List Key :=
      [.word "return", .mark "(", (.template, "\x60"), .mark ")", .mark ";"]
    (∀ cell ∈ [quoted, tested], ∃ source : SourceCell,
        source.language = .script ∧ source.compile = .ok cell) ∧
      '\n' ∉ "braces".toList ∧
      ∃ library tokens, Library.generate [quoted, tested] "braces" [] "latest" = .ok library ∧
        lexFrom {} library.moduleText.toList = .ok tokens ∧
        tokens.map Token.key = library.module.tokenKeys ∧
        textKeys "function" ++ .mark "(" :: .mark ")" :: .mark openBrace ::
          (keys ++ [.mark closeBrace]) <:+: tokens.map Token.key := by
  intro quoted tested keys
  have compiled : ∀ cell ∈ [quoted, tested], ∃ source : SourceCell,
      source.language = .script ∧ source.compile = .ok cell := by
    intro cell member
    simp only [List.mem_cons, List.not_mem_nil, or_false] at member
    rcases member with rfl | rfl
    · exact ⟨⟨"1", 1, .script, "a = \x60\x7d\x60 // \"", [], false⟩, rfl, by decide +kernel⟩
    · exact ⟨⟨"2", 2, .script, "/[/\x7b]/.test(a)", [], false⟩, rfl, by decide +kernel⟩
  have line : '\n' ∉ "braces".toList := by decide
  have ascending : [quoted, tested].Pairwise fun cell other => cell.index < other.index := by
    decide
  have generated := Library.generate_of_pairwise "braces" [] "latest" (List.Perm.refl _) ascending
    (by decide +kernel) (by decide +kernel)
  obtain ⟨tokens, done, read, bodies⟩ := lexFrom_generate _ compiled line generated
  refine ⟨compiled, line, _, tokens, generated, done, read, ?_⟩
  obtain ⟨inputs, bodyTokens, none, body, inside⟩ := bodies quoted List.mem_cons_self
  have own : textKeys quoted.body = keys := by decide +kernel
  cases List.sublist_nil.1 none
  rw [← textKeys_eq body, own] at inside
  exact inside

end Bindery
