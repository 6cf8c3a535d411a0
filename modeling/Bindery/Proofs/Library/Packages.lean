/-
Proofs.Library.Packages -- the packages that the code of a library loads

The packages of a cell are found in its source, and the code that loads them is written
anew by edits of that source.  The two agree: whatever literal the body of a procedure
passes to `import`, if it refers to a package then the package is one of the cell, and
neither wrapper nor version is left (`Script.loads_compile`).  The manifest lists the
packages of all cells (`mem_collectDependencies`), so the code of a library loads only
packages that the manifest lists (`generate_loads`).
-/
import Bindery.Proofs.Import.Exchange
import Bindery.Proofs.Library.Image

namespace Bindery

open List TokenSeq Text

/-! ## The body of a procedure -/

namespace Script

variable {source : List Char} {tokens : List Token} {imports : Import.Found} {fine : String → Prop}
  {n : String} {i : Nat}

theorem loads_program {ks : List Key} (done : lexFrom {} source = .ok tokens)
    (trace : Import.Trace none tokens imports ks) (loads : Loads fine false ks) :
    ∃ formTokens, lexFrom {} (applyEdits source 0 (byteLength source) imports.edits) = .ok formTokens ∧
      Loads fine false (formTokens.map Token.key) := by
  obtain ⟨ps, g, closed, rfl, valid, isGap, outside, placed⟩ := laid_of_lexFrom done
  obtain ⟨ps', exchanged⟩ := exchanged_of_trace trace valid placed
  obtain ⟨valid', braces⟩ := exchanged.valid _ ⟨rfl, .inl rfl⟩
  have whole : slice 0 (byteLength (written ps ++ g)) (written ps ++ g) =
      written ps ++ g := by
    simpa [byteLength] using slice_append [] (written ps ++ g) []
  have bounded : 0 + byteLength (written ps) ≤ byteLength (written ps ++ g) := by
    rw [byteLength_append]
    omega
  obtain ⟨formTokens, formed, read⟩ := lexFrom_of_laid valid' isGap (braces.trans outside)
  refine ⟨formTokens, ?_, read ▸ exchanged.keys.loads loads⟩
  rw [applyEdits, whole, exchanged.changed.applyFrom g bounded]
  exact formed

theorem loads_formBody {ns : List String} (isView : Bool) (done : lexFrom {} source = .ok tokens)
    (settled : Import.onlyCalls none tokens ∨ Form.detect tokens isView = .program ∧ Import.Separate tokens)
    (scanned : Import.scan tokens = .ok imports) (listed : ∀ ref ∈ imports.packages, ref.name ∈ ns) :
    ∃ formTokens, lexFrom {} (formBody (Form.detect tokens isView) source
        tokens imports.edits) = .ok formTokens ∧
      Loads (Resolved ns) false (formTokens.map Token.key) := by
  obtain ⟨ps, g, closed, -, valid, -, -, placed⟩ := laid_of_lexFrom done
  have separate : Import.Separate tokens := settled.elim Import.separate_of_onlyCalls And.right
  obtain ⟨ks, trace⟩ := Import.trace_scanFrom (legible_of_placed valid placed) separate scanned
  have trace : Import.Trace none tokens imports ks := trace
  have loads : Loads (Resolved ns) false ks := trace.loads listed
  rcases settled with calls | ⟨program, -⟩
  · obtain ⟨got, scanned', edits⟩ := Import.scan_eq calls
    cases scanned'.symm.trans scanned
    obtain ⟨formTokens, formed, read⟩ := lexFrom_of_spells (spells_formBody isView done)
    refine ⟨formTokens, edits ▸ formed, ?_⟩
    rw [read, ← trace.keys_eq calls]
    exact loads_formKeys isView (trace.keys_eq calls ▸ selects_rewriteCalls none tokens) loads
  · rw [program]
    exact loads_program done trace loads

/-- **The body of a procedure loads only packages of its cell.** -/
theorem loads_compile {c : SourceCell} {compiled : CompiledCell} (compiles : compile c = .ok compiled)
    (settled : ∀ tokens, lexFrom {} c.source.toList = .ok tokens →
      Import.onlyCalls none tokens ∨ Form.detect tokens c.isView = .program ∧ Import.Separate tokens) :
    ∃ bodyTokens, lexFrom {} compiled.body.toList = .ok bodyTokens ∧
      Loads (Resolved compiled.packages) false (bodyTokens.map Token.key) := by
  obtain ⟨tokens, imports, body, bodyTokens, lexed, scanned, replaced, relexed, rfl⟩ :=
    compile_eq_ok.1 compiles
  have done : lexFrom {} c.source.toList = .ok tokens := Except.mapError_eq_ok.1 lexed
  have again : lexFrom {} body = .ok bodyTokens := Except.mapError_eq_ok.1 relexed
  have listed : ∀ ref ∈ imports.packages, ref.name ∈ packageSet imports.packages :=
    fun ref mem => Sorted.mem_ofList.2 (mem_map_of_mem mem)
  obtain ⟨formTokens, formed, loads⟩ := loads_formBody c.isView done (settled tokens done) scanned listed
  obtain ⟨body', tokens', replaced', again', merged⟩ := replaceViews_eq formed
  cases replaced'.symm.trans replaced
  cases again'.symm.trans again
  have loads : Loads (Resolved (packageSet imports.packages)) ((none : Option Key).any Key.selects)
      (formTokens.map Token.key) := loads
  have loads : Loads (Resolved (packageSet imports.packages)) false (bodyTokens.map Token.key) :=
    merged ▸ loads.mergeViews
  obtain ⟨allTokens, all, ks⟩ := lexFrom_of_spells (spells_assemble again c
    (Form.detect tokens c.isView) imports)
  refine ⟨allTokens, all, ?_⟩
  rw [ks]
  split
  · exact loads_returnKeys loads _
  · rw [append_nil]
    exact loads

end Script

/-! ## The manifest -/

theorem isSome_find?_foldl_insert (range : String → String) {packages : List String} {table : NameMap String}
    (known : n ∈ packages ∨ (table.find? n).isSome) :
    ((packages.foldl (fun got package => got.insert package (range package)) table).find? n).isSome := by
  induction packages generalizing table with
  | nil => exact known.resolve_left not_mem_nil
  | cons package packages ih =>
    refine ih ?_
    rw [Table.find?_insert]
    rcases known with mem | present
    · rcases mem_cons.1 mem with rfl | mem
      · exact .inr (by rw [if_pos rfl]; rfl)
      · exact .inl mem
    · by_cases eq : n = package
      · exact .inr (by rw [if_pos eq]; rfl)
      · exact .inr (by rw [if_neg eq]; exact present)

theorem mem_collectDependencies {cs : List CompiledCell} {c : CompiledCell} (mem : c ∈ cs)
    (imported : n ∈ c.packages) (workspace : List String) (fallback : String) :
    n ∈ (collectDependencies cs workspace fallback).map Prod.fst := by
  have among : n ∈ importedPackages cs := Sorted.mem_ofList.2 (mem_flatMap.2 ⟨c, mem, imported⟩)
  obtain ⟨range, got⟩ := Option.isSome_iff_exists.1 (isSome_find?_foldl_insert
    (rangeOf (pinnedVersions cs) workspace fallback) (.inl among))
  exact mem_map.2 ⟨_, Table.mem_of_find? got, rfl⟩

/-! ## Calls in a body -/

def Import.loadedAt? (seq : TokenSeq) (index : Nat) : Option Token :=
  if seq.holds index (·.isKeyword "import") && seq.punctAt (index + 1) "(" &&
      !seq.prevHolds index Token.selects then argumentAt? seq (index + 2)
  else none

theorem selectedBehind_take {tokens : List Token} (inside : i ≤ tokens.length)
    (free : (ofList tokens).prevHolds i Token.selects = false) :
    selectedBehind false ((tokens.take i).map Token.key) = false := by
  rw [selectedBehind, getLast?_map, getLast?_take]
  split
  · rfl
  · next positive =>
    rw [prevHolds, prev?, if_neg positive, get?_ofList] at free
    obtain ⟨t, here⟩ : ∃ t, tokens[i - 1]? = some t := ⟨_, getElem?_eq_getElem (by omega)⟩
    rw [here] at free ⊢
    exact (selects_key t).trans free

theorem Loads.loadedAt {tokens : List Token} {arg : Token} (loads : Loads fine false (tokens.map Token.key))
    (got : Import.loadedAt? tokens i = some arg) : arg.kind = .string ∧ fine arg.text := by
  unfold Import.loadedAt? at got
  split at got
  · next cond =>
    simp only [Bool.and_eq_true, Bool.not_eq_true'] at cond
    obtain ⟨⟨called, opened⟩, free⟩ := cond
    obtain ⟨callee, fst, isImport⟩ := holds_eq_true.1 called
    obtain ⟨o, snd, mark⟩ := holds_eq_true.1 opened
    obtain ⟨third, string⟩ := Option.filter_eq_some_iff.1 got
    have inside : i < tokens.length := by
      simpa [size, ofList] using lt_of_get? fst
    have word : callee.key = .word "import" := by
      simpa [Token.isKeyword, Token.key, Key.word] using isImport
    have kind : arg.kind = .string := beq_iff_eq.1 string
    have literal : arg.key = (.string, arg.text) := congrArg (·, arg.text) kind
    rw [← take_append_drop i tokens, (Import.drop_of_get? fst).1,
      (Import.drop_of_get? snd).1, (Import.drop_of_get? third).1, map_append,
      map_cons, map_cons, map_cons, word, key_eq_mark.2 mark, literal] at loads
    exact ⟨kind, loads.literal (selectedBehind_take (Nat.le_of_lt inside) free)⟩
  · cases got

/-- **The code of a library loads only packages that its manifest lists.**  Each cell has no
static imports, or it is a program and they are detached from what follows.  Wherever the body
of a cell passes a literal to `import`, and the literal refers to a package, its value is the
name of a package in the manifest, or that name with a path behind it, and no wrapper is left
in front. -/
theorem generate_loads (cells : List CompiledCell)
    (compiled : ∀ cell ∈ cells, ∃ source : SourceCell,
      source.language = .script ∧ source.compile = .ok cell ∧
      ∀ tokens, lexFrom {} source.source.toList = .ok tokens →
        Import.onlyCalls none tokens = true ∨
          Form.detect (TokenSeq.ofList tokens) source.isView = .program ∧
            Import.Separate (TokenSeq.ofList tokens))
    {name : String} {workspace : List String} {fallback : String} {library : Library}
    (generated : Library.generate cells name workspace fallback = .ok library) :
    ∀ cell ∈ cells, ∃ bodyTokens, lexFrom {} cell.body.toList = .ok bodyTokens ∧
      ∀ index, ∀ argument ∈ Import.loadedAt? (TokenSeq.ofList bodyTokens) index,
        ∀ value ∈ argument.stringValue?, (Specifier.classify value).isPackage = true →
          Loadable (library.manifest.dependencies.map Prod.fst) value := by
  intro cell member
  obtain ⟨source, script, compiles, settled⟩ := compiled cell member
  rw [SourceCell.compile, script] at compiles
  obtain ⟨bodyTokens, lexed, loads⟩ :=
    Script.loads_compile (Except.mapError_eq_ok.1 compiles) settled
  refine ⟨bodyTokens, lexed, fun index argument found value read package => ?_⟩
  obtain ⟨string, resolved⟩ := loads.loadedAt found
  obtain ⟨ref, wrapped, isRef⟩ := Specifier.isPackage_iff.1 package
  rw [stringValue?_eq string] at read
  obtain ⟨-, -, -, manifest⟩ := Library.generate_eq_ok.1 generated
  refine (resolved value ref wrapped read isRef).mono fun package imported => ?_
  rw [manifest]
  exact mem_collectDependencies (List.mem_map_of_mem (List.mem_mergeSort.2 member)) imported _ _

/-- A static import with attributes and without a semicolon, and a call behind it. -/
theorem generate_loads_attributes :
    let source : SourceCell := ⟨"0", 0, .script,
      "import \x7ba\x7d from \"npm:d3@7/x\" with \x7bt: \"\"\x7d\na(import('npm:y@2'))", [], false⟩
    let cell : CompiledCell := ⟨0, ["a"], [],
      "const \x7ba\x7d = await import(\"d3/x\");\na(import(\"y\"))\nreturn a;", ["d3", "y"],
      [("d3", "7"), ("y", "2")], .single, true, false⟩
    (source.language = .script ∧ source.compile = .ok cell ∧
      ∀ tokens, lexFrom {} source.source.toList = .ok tokens →
        Import.onlyCalls none tokens = true ∨
          Form.detect (TokenSeq.ofList tokens) source.isView = .program ∧
            Import.Separate (TokenSeq.ofList tokens)) ∧
      ∃ library, Library.generate [cell] "demo" [] "latest" = .ok library ∧
        Loadable (library.manifest.dependencies.map Prod.fst) "d3/x" ∧
        Loadable (library.manifest.dependencies.map Prod.fst) "y" := by
  intro source cell
  have compiled : source.language = .script ∧ source.compile = .ok cell ∧
      ∀ tokens, lexFrom {} source.source.toList = .ok tokens →
        Import.onlyCalls none tokens = true ∨
          Form.detect (TokenSeq.ofList tokens) source.isView = .program ∧
            Import.Separate (TokenSeq.ofList tokens) := by
    refine ⟨rfl, by decide +kernel, fun tokens lexed => ?_⟩
    have known : (lexFrom {} source.source.toList).toOption.all (fun tokens =>
        decide (Form.detect (TokenSeq.ofList tokens) source.isView = .program ∧
          Import.Separate (TokenSeq.ofList tokens))) = true := by decide +kernel
    rw [lexed] at known
    exact .inr (of_decide_eq_true known)
  have generated := Library.generate_of_pairwise "demo" [] "latest" (List.Perm.refl [cell])
    (List.pairwise_singleton _ _) (by decide +kernel) (by decide +kernel)
  obtain ⟨bodyTokens, lexed, loads⟩ := generate_loads [cell]
    (fun other member => List.mem_singleton.1 member ▸ ⟨source, compiled⟩) generated cell
    List.mem_cons_self
  have body : (lexFrom {} cell.body.toList).toOption.all (fun tokens =>
      ((Import.loadedAt? (TokenSeq.ofList tokens) 6).bind Token.stringValue? == some "d3/x") &&
        ((Import.loadedAt? (TokenSeq.ofList tokens) 13).bind Token.stringValue? == some "y")) =
      true := by decide +kernel
  rw [lexed] at body
  obtain ⟨first, second⟩ := Bool.and_eq_true_iff.1 body
  obtain ⟨argument, found, value⟩ := Option.bind_eq_some_iff.1 (beq_iff_eq.1 first)
  obtain ⟨argument', found', value'⟩ := Option.bind_eq_some_iff.1 (beq_iff_eq.1 second)
  exact ⟨compiled, _, generated, loads 6 argument found _ value (by decide +kernel),
    loads 13 argument' found' _ value' (by decide +kernel)⟩

/-- A division behind a static import.  Behind the semicolon of the declaration it is a
regular expression, and what was a string is code. -/
theorem generate_loads_division :
    let source : SourceCell := ⟨"0", 0, .script,
      "import \"a\"\n/ ' / + import(\"npm:x\") //'", [], false⟩
    let cell : CompiledCell := ⟨0, [], [],
      "await import(\"a\");\n/ ' / + import(\"npm:x\") //'", ["a"], [], .anonymous, true, false⟩
    source.compile = .ok cell ∧
      (∀ tokens, lexFrom {} source.source.toList = .ok tokens →
        Form.detect (TokenSeq.ofList tokens) source.isView = .program) ∧
      ∃ library bodyTokens argument, Library.generate [cell] "demo" [] "latest" = .ok library ∧
        lexFrom {} cell.body.toList = .ok bodyTokens ∧
        Import.loadedAt? (TokenSeq.ofList bodyTokens) 8 = some argument ∧
        argument.stringValue? = some "npm:x" ∧ (Specifier.classify "npm:x").isPackage = true ∧
        ¬ Loadable (library.manifest.dependencies.map Prod.fst) "npm:x" := by
  intro source cell
  have compiles : source.compile = .ok cell := by decide +kernel
  have program : ∀ tokens, lexFrom {} source.source.toList = .ok tokens →
      Form.detect (TokenSeq.ofList tokens) source.isView = .program := by
    intro tokens lexed
    have known : (lexFrom {} source.source.toList).toOption.all (fun tokens =>
        decide (Form.detect (TokenSeq.ofList tokens) source.isView = .program)) = true := by
      decide +kernel
    rw [lexed] at known
    exact of_decide_eq_true known
  have generated := Library.generate_of_pairwise "demo" [] "latest" (List.Perm.refl [cell])
    (List.pairwise_singleton _ _) (by decide +kernel) (by decide +kernel)
  have body : (lexFrom {} cell.body.toList).toOption.any (fun tokens =>
      (Import.loadedAt? (TokenSeq.ofList tokens) 8).bind Token.stringValue? == some "npm:x") =
      true := by decide +kernel
  cases lexed : lexFrom {} cell.body.toList with
  | error error => rw [lexed] at body; cases body
  | ok bodyTokens =>
      rw [lexed] at body
      obtain ⟨argument, found, value⟩ := Option.bind_eq_some_iff.1 (beq_iff_eq.1 body)
      refine ⟨compiles, program, _, bodyTokens, argument, generated, rfl, found, value,
        by decide +kernel, fun loadable => ?_⟩
      exact loadable.unwrapped "npm:" (by decide) (by decide)

end Bindery
