/-
Token.Brackets -- which bracket closes which

`matchBrackets` finds the partner of every bracket in a list of tokens.  A closing
bracket closes the innermost open one when the two are of one kind, and otherwise
closes nothing, so an unbalanced text still has a table; brackets without a
partner, and all other tokens, have no entry.

`TokenSeq` holds the tokens together with that table.  Every reader of tokens asks
it for a neighbour or for the end of a bracket, and gets an answer at every index.
-/
import Bindery.Token.Basic

namespace Bindery

namespace Token

def closerText? (token : Token) : Option String :=
  if token.isPunct "(" then some ")"
  else if token.isPunct "[" then some "]"
  else if token.isPunct openBrace then some closeBrace
  else none

def isOpener (token : Token) : Bool :=
  token.closerText?.isSome

def isCloser (token : Token) : Bool :=
  token.isPunct ")" || token.isPunct "]" || token.isPunct closeBrace

end Token

/-- A scan for brackets: the open ones with the text that closes them, the
innermost first, and the partners found so far. -/
structure BracketScan where
  stack : List (Nat × String)
  partners : Array (Option Nat)

namespace BracketScan

def step (scan : BracketScan) (token : Token) (index : Nat) : BracketScan :=
  match token.closerText? with
  | some closer => { scan with stack := (index, closer) :: scan.stack }
  | none =>
    if token.isCloser then
      match scan.stack with
      | (opener, closer) :: outer =>
        if token.text = closer then
          ⟨outer, (scan.partners.setIfInBounds opener (some index)).setIfInBounds index
            (some opener)⟩
        else scan
      | [] => scan
    else scan

def run (scan : BracketScan) : List Token → Nat → BracketScan
  | [], _ => scan
  | token :: rest, index => (scan.step token index).run rest (index + 1)

end BracketScan

def matchBrackets (tokens : List Token) : Array (Option Nat) :=
  (BracketScan.run ⟨[], Array.replicate tokens.length none⟩ tokens 0).partners

structure TokenSeq where
  tokens : Array Token
  partners : Array (Option Nat)

namespace TokenSeq

def ofList (tokens : List Token) : TokenSeq :=
  ⟨tokens.toArray, matchBrackets tokens⟩

instance : Coe (List Token) TokenSeq :=
  ⟨ofList⟩

def size (seq : TokenSeq) : Nat :=
  seq.tokens.size

def get? (seq : TokenSeq) (index : Nat) : Option Token :=
  seq.tokens[index]?

def ident? (seq : TokenSeq) (index : Nat) : Option Token :=
  (seq.get? index).filter (·.kind == .ident)

def prev? (seq : TokenSeq) (index : Nat) : Option Token :=
  if index = 0 then none else seq.get? (index - 1)

def holds (seq : TokenSeq) (index : Nat) (p : Token → Bool) : Bool :=
  (seq.get? index).any p

def prevHolds (seq : TokenSeq) (index : Nat) (p : Token → Bool) : Bool :=
  (seq.prev? index).any p

def punctAt (seq : TokenSeq) (index : Nat) (text : String) : Bool :=
  seq.holds index (·.isPunct text)

def partner? (seq : TokenSeq) (index : Nat) : Option Nat :=
  seq.partners[index]?.join

def closer? (seq : TokenSeq) (index : Nat) : Option Nat :=
  (seq.partner? index).filter (index < ·)

def opener? (seq : TokenSeq) (index : Nat) : Option Nat :=
  (seq.partner? index).filter (· < index)

/-- The index behind a token, or behind the whole bracket it opens. -/
def skip (seq : TokenSeq) (index : Nat) : Nat :=
  match seq.closer? index with
  | some closer => closer + 1
  | none => index + 1

theorem lt_of_get? {seq : TokenSeq} {index : Nat} {token : Token}
    (found : seq.get? index = some token) : index < seq.size := by
  unfold get? at found
  exact (Array.getElem?_eq_some_iff.1 found).1

theorem ident?_eq_some {seq : TokenSeq} {index : Nat} {token : Token} :
    seq.ident? index = some token ↔ seq.get? index = some token ∧ token.kind = .ident := by
  simp [ident?, Option.filter_eq_some_iff]

theorem lt_closer {seq : TokenSeq} {index closer : Nat}
    (found : seq.closer? index = some closer) : index < closer := by
  simpa using (Option.filter_eq_some_iff.1 found).2

theorem lt_skip (seq : TokenSeq) (index : Nat) : index < seq.skip index := by
  unfold skip
  split
  · next closer found => have := lt_closer found; omega
  · omega

end TokenSeq

end Bindery
