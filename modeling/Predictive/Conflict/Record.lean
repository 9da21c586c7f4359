import Predictive.Conflict.Basic

/-!
# Conflict records

The flat form in which a conflict is handed on: the name of its kind,
any number of productions, and a list of terminals in which a terminal
may come twice. A record is made from a conflict (`Conflict.record`); one
put together by hand may name two alternatives of a first/first conflict
wrongly, and has then no wording.
-/

namespace Predictive

/-- A conflict as a flat record. -/
structure ConflictRecord where
  kind : Text
  nonterminal : Symbol
  productions : List Production
  terminals : List Symbol
deriving DecidableEq

/-- A first/first record does not name two productions. -/
inductive PairingError where
  | tooFew (got : Nat)
  | tooMany
deriving DecidableEq

def PairingError.message : PairingError → Text
  | tooFew got => "not enough values to unpack (expected 2, got " ++ Text.ofNat got ++ ")"
  | tooMany => "too many values to unpack (expected 2)"

namespace ConflictRecord

/-- A record with its terminals in increasing order. -/
def ofParts (kind : Text) (nonterminal : Symbol) (productions : List Production)
    (terminals : List Symbol) : ConflictRecord :=
  ⟨kind, nonterminal, productions, terminals.mergeSort fun a b => !(decide (b < a))⟩

/-- The wording of a record. Every kind but first/first is worded as a
clash with FOLLOW. -/
def message (r : ConflictRecord) : Except PairingError Text :=
  if r.kind = "first/first" then
    match r.productions with
    | [p, q] => .ok (Conflict.firstFirstMessage p q r.terminals)
    | [] => .error (.tooFew 0)
    | [_] => .error (.tooFew 1)
    | _ => .error .tooMany
  else .ok (Conflict.firstFollowMessage r.nonterminal r.terminals)

def text (r : ConflictRecord) : Except PairingError Text :=
  r.message.map fun m => "Conflict(" ++ r.kind ++ ": " ++ m ++ ")"

end ConflictRecord

def Conflict.record (c : Conflict) : ConflictRecord :=
  ⟨c.kind, c.nonterminal, c.productions, c.terminals.toList⟩

end Predictive
