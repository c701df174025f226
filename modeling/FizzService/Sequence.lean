/-
The sequence a client asks for, and the body it is answered with. `sequence_eq_intercalate`: the
sequence is the tokens of the numbers from one to the limit, joined by commas.
-/
import FizzService.Json
import FizzService.Params

namespace FizzService.Params

/-- Whether the first replacement applies to `i`. -/
def hitsOne (p : Params) (i : Nat) : Bool := p.nbOne > 0 && i % p.nbOne == 0

/-- Whether the second replacement applies to `i`. -/
def hitsTwo (p : Params) (i : Nat) : Bool := p.nbTwo > 0 && i % p.nbTwo == 0

/-- A sequence that ends before `i`, continued by `i`. -/
def extend (p : Params) (out : String) (i : Nat) : String :=
  let out := if i > 1 then out.push ',' else out
  let one := p.hitsOne i
  let two := p.hitsTwo i
  let out := if one then out ++ p.strOne else out
  let out := if two then out ++ p.strTwo else out
  if !one && !two then out ++ toString i else out

/-- The sequence from one to `n`. -/
def upTo (p : Params) (n : Nat) : String :=
  n.fold (fun i _ out => p.extend out (i + 1)) ""

def sequence (p : Params) : String := p.upTo p.limit

/-- The body of the answer: the sequence itself, or an object that holds it. -/
def render (p : Params) : ByteArray :=
  match p.format with
  | .text => p.sequence.toUTF8
  | .json => (Json.object [("txt", .text p.sequence)]).bytes

/-- What stands for `i`: the replacements that apply to it, or its digits if none does. -/
def token (p : Params) (i : Nat) : String :=
  if p.hitsOne i || p.hitsTwo i then
    (if p.hitsOne i then p.strOne else "") ++ (if p.hitsTwo i then p.strTwo else "")
  else toString i

def tokens (p : Params) (n : Nat) : List String := (List.range' 1 n).map p.token

theorem tokens_succ (p : Params) (n : Nat) : p.tokens (n + 1) = p.tokens n ++ [p.token (n + 1)] := by
  simp [tokens, List.range'_1_concat, Nat.add_comm]

theorem extend_eq (p : Params) (out : String) (i : Nat) :
    p.extend out i = (if i > 1 then out.push ',' else out) ++ p.token i := by
  unfold extend token
  generalize (if i > 1 then out.push ',' else out) = o
  cases p.hitsOne i <;> cases p.hitsTwo i <;> simp [String.append_assoc]

theorem upTo_succ (p : Params) (n : Nat) : p.upTo (n + 1) = p.extend (p.upTo n) (n + 1) :=
  Nat.fold_succ ..

theorem upTo_eq_intercalate (p : Params) (n : Nat) : p.upTo n = ",".intercalate (p.tokens n) := by
  induction n with
  | zero => rfl
  | succ n ih =>
    rw [upTo_succ, extend_eq, tokens_succ, ih]
    cases n with
    | zero => simp [tokens]
    | succ n =>
      rw [if_pos (by omega), String.intercalate_append_of_ne_nil (by simp [tokens]) (by simp),
        String.intercalate_singleton, String.push_eq_append]
      rfl

theorem sequence_eq_intercalate (p : Params) :
    p.sequence = ",".intercalate (p.tokens p.limit) := p.upTo_eq_intercalate p.limit

end FizzService.Params
