/-
Proofs.Scope.Outcome -- what the analysis says of a finished walk

An effect on the outermost scope fixes everything that the analysis reports
(`Effect.analysis_eq`).  So statements that are walked with an effect are analyzed by
it (`analyze_of_walks`), and what stands in front of other tokens counts only by its
effect (`Effect.analysis_lift`): two beginnings with one effect are as good as each
other.
-/
import Bindery.Proofs.Scope.Composition
import Bindery.Proofs.Scope.Exact

namespace Bindery

open Program

namespace Scope

variable {ts : List Token} {ds : List Declared} {free : List String} {waits : Bool}

def Walk.analysis (w : Walk) : Analysis :=
  ⟨w.topLevel, w.freeNames, w.awaits, w.yields⟩

theorem analyze_eq (ts : List Token) : analyze ts = (Walk.runFrom ts 0 {}).analysis := rfl

def outcome (names free : List String) (waits : Bool) : Analysis :=
  ⟨names.eraseDups, (without names free).eraseDups, waits, false⟩

namespace Effect

variable {w : Walk} {stop : Nat}

section

variable (effect : Effect root ({} : Walk).notes w.notes stop ds free waits)
include effect

theorem topLevel_eq : w.topLevel = (ds.map (·.name)).eraseDups := by
  rw [topLevel_eq_namesOf, ← addNames_nil, ← declaredIn_root]
  exact effect.names 0 Nat.one_pos

theorem freeOccurrences_eq : w.freeOccurrences = without (ds.map (·.name)) free := by
  obtain ⟨new, uses, _, judged⟩ := effect.uses
  have all : w.uses = new := uses.trans (List.append_nil new)
  show unbound w.bindings w.uses = _
  rw [all, judged w.bindings fun _ _ _ _ => Iff.rfl]
  refine List.filter_congr fun n _ => ?_
  have bound : boundIn w.bindings n root = decide (n ∈ ds.map (·.name)) := by
    rw [Bool.eq_iff_iff, decide_eq_true_iff, ← List.mem_eraseDups, ← effect.topLevel_eq, Walk.mem_topLevel]
    simp [boundIn, root]
  rw [bound, decide_not]

theorem analysis_eq : w.analysis = outcome (ds.map (·.name)) free waits := by
  have awaits : w.awaits = waits := effect.awaits
  have yields : w.yields = false := effect.yields
  have ns : w.freeNames = w.freeOccurrences.eraseDups := rfl
  rw [Walk.analysis, outcome, effect.topLevel_eq, ns, effect.freeOccurrences_eq, awaits, yields]

end

theorem analysis_lift {later b b' : Walk} {seq seq' seq'' : TokenSeq} {pos pos' stop' : Nat}
    (effect : Effect root ({} : Walk).notes b.notes stop ds free waits)
    (effect' : Effect root ({} : Walk).notes b'.notes stop' ds free waits) (below : b.Below pos)
    (below' : b'.Below pos') (lower : b.Sound seq) (lower' : b'.Sound seq') (upper : later.Sound seq'') :
    (later.lift b pos).analysis = (later.lift b' pos').analysis := by
  have awaits : b.awaits = b'.awaits := effect.awaits.trans effect'.awaits.symm
  have yields : b.yields = b'.yields := effect.yields.trans effect'.yields.symm
  have ns : ∀ w : Walk, w.freeNames = w.freeOccurrences.eraseDups := fun _ => rfl
  unfold Walk.analysis
  rw [ns, ns, Walk.topLevel_lift, Walk.topLevel_lift,
    Walk.freeOccurrences_lift below lower upper, Walk.freeOccurrences_lift below' lower' upper,
    effect.topLevel_eq, effect'.topLevel_eq, effect.freeOccurrences_eq, effect'.freeOccurrences_eq]
  simp only [Walk.lift, awaits, yields]

end Effect

theorem poised_initial (ts : List Token) : Poised ts 0 {} :=
  ⟨.initial _, rfl, (fun _ mem => nomatch mem), (fun _ mem => nomatch mem), (fun _ mem => nomatch mem), rfl⟩

theorem inside_initial : Inside {} := ⟨(fun _ mem => nomatch mem), fun _ mem => nomatch mem⟩

theorem analyze_of_whole (whole : Whole ts {} 0 ts.length ds free waits) :
    analyze ts = outcome (ds.map (·.name)) free waits := by
  obtain ⟨last, reaches, _, _, effect⟩ := whole
  rw [analyze_eq, reaches.runFrom, Walk.runFrom_of_none, effect.analysis_eq]
  rw [TokenSeq.get?_ofList, List.getElem?_eq_none (Nat.le_refl _)]

theorem analyze_of_walks {ks : List Key} (walks : WalksBlock ts ks ds free waits)
    (written : ts.map Token.key = ks) : analyze ts = outcome (ds.map (·.name)) free waits := by
  refine analyze_of_whole (walks ?_ (poised_initial ts) inside_initial ⟨rfl, rfl⟩ (.inl rfl)
    (shows_of_map written))
  rw [← written, List.length_map, Nat.zero_add]

end Scope

end Bindery
