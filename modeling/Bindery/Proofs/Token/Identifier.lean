/-
Proofs.Token.Identifier -- the texts of identifiers

An identifier that the lexer emits is a word: it starts like a name, every further
character may continue a name, and it is not reserved (`IsWord`).
-/
import Bindery.Proofs.Token.Reading

namespace Bindery

open List Text

variable {s : List Char} {st : LexState} {ts : List Token}

def isWordPart (c : Char) : Bool :=
  Scan.isNamePart c || c == '\\'

def IsWord (s : String) : Prop :=
  ∃ c more, s = String.ofList (c :: more) ∧ (Scan.isNameStart c ∨ c = '\\') ∧
    (∀ d ∈ more, isWordPart d) ∧ isReserved s = false

theorem IsWord.space_not_mem {s : String} (w : IsWord s) : ' ' ∉ s.toList := by
  obtain ⟨c, tl, rfl, fst, ps, -⟩ := w
  rw [String.toList_ofList, mem_cons, not_or]
  constructor
  · rintro rfl
    rcases fst with start | backslash
    · exact absurd start (by decide +kernel)
    · cases backslash
  · intro mem
    have part := ps ' ' mem
    exact absurd part (by decide +kernel)

namespace LexState

variable {step : Lexed} {t : Token} {r : List Char}

theorem kind_of_mem_template {opening : Nat} {s : List Char} (done : st.template opening s = .ok step)
    (mem : t ∈ step.tokens) : t.kind = .punct := by
  unfold template at done
  split at done
  · cases done
  · cases done
    cases mem
  · cases done
    cases mem_singleton.1 mem
    rfl

theorem eq_of_mem_emit {kind : TokenKind} {lexeme : List Char} (mem : t ∈ (st.emit kind lexeme r).tokens) :
    t.kind = kind ∧ t.text = String.ofList lexeme := by
  cases mem_singleton.1 mem
  exact ⟨rfl, rfl⟩

theorem isWord_of_mem_lexeme {c : Char} (done : st.lexeme c r = .ok step)
    (mem : t ∈ step.tokens) (ident : t.kind = .ident) : IsWord t.text := by
  unfold lexeme at done
  split at done
  · dsimp only at done
    split at done
    · cases done
    · next inner opened =>
      cases done
      rcases mem_append.1 mem with mem | mem
      · rw [(eq_of_mem_emit mem).1] at ident
        cases ident
      · rw [kind_of_mem_template opened mem] at ident
        cases ident
  split at done
  · dsimp only at done
    split at done
    · cases done
    · next inner closed =>
      cases done
      rcases mem_cons.1 mem with rfl | mem
      · cases ident
      · rw [kind_of_mem_template closed mem] at ident
        cases ident
  split at done
  · split at done
    · cases done
    · cases done
      rw [(eq_of_mem_emit mem).1] at ident
      cases ident
  split at done
  · cases done
    rw [(eq_of_mem_emit mem).1] at ident
    cases ident
  split at done
  · cases done
    rw [(eq_of_mem_emit mem).1] at ident
    cases ident
  split at done
  · next fst =>
    cases done
    obtain ⟨kind, text⟩ := eq_of_mem_emit mem
    refine ⟨c, _, text, fst, fun d inside => ?_, ?_⟩
    · exact all_eq_true.1 all_takeWhile d inside
    · rw [ident] at kind
      split at kind
      · cases kind
      · next free => rw [text]; simpa using free
  split at done
  · split at done
    · cases done
    · cases done
      rw [(eq_of_mem_emit mem).1] at ident
      cases ident
  split at done
  · cases done
  · cases done
    rw [(eq_of_mem_emit mem).1] at ident
    cases ident

end LexState

theorem Reads.isWord {after : LexState} {r : List Char} (reads : Reads st s ts after r) :
    ∀ t ∈ ts, t.kind = .ident → IsWord t.text := by
  induction reads with
  | nil => intro t mem; cases mem
  | cons skip lexed next ih =>
    intro t mem ident
    rcases mem_append.1 mem with mem | mem
    · exact LexState.isWord_of_mem_lexeme lexed mem ident
    · exact ih t mem ident

/-- **An identifier that the lexer emits is a word.** -/
theorem isWord_of_mem_lexFrom (done : lexFrom st s = .ok ts) : ∀ t ∈ ts, t.kind = .ident → IsWord t.text := by
  obtain ⟨_, _, _, _, reads, -⟩ := exists_reads done
  exact reads.isWord

end Bindery
