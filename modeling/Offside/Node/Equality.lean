import Offside.Node.Basic

/-! # Equality of trees

Two trees are the same if they are built alike, where numbers are compared by value and objects
without regard to the order of their pairs.
-/

namespace Offside

namespace Node

mutual

def same : Node → Node → Bool
  | comment s, comment t => s == t
  | letValue n s v, letValue m t w => n == m && s == t && same v w
  | dataType n ps vs, dataType m qs ws => n == m && ps == qs && vs == ws
  | macroBody n b, macroBody m c => n == m && sameAll b c
  | bind n v, bind m w => n == m && same v w
  | result v, result w => same v w
  | function n ps s b, function m qs t c => n == m && ps == qs && s == t && sameAll b c
  | choice v cs, choice w ds => same v w && sameCases cs ds
  | conditional v a b, conditional w c d => same v w && sameAll a c && sameAll b d
  | sequence v b, sequence w c => same v w && sameAll b c
  | call v as, call w bs => same v w && sameAll as bs
  | identifier n, identifier m => n == m
  | access v f, access w g => same v w && f == g
  | arithmetic o a b, arithmetic p c d => o == p && same a c && same b d
  | comparison o a b, comparison p c d => o == p && same a c && same b d
  | splice v, splice w => same v w
  | quoted v, quoted w => same v w
  | number x, number y => x.same y
  | string s, string t => s == t
  | boolean b, boolean c => b == c
  | array as, array bs => sameAll as bs
  | object ps, object qs => ps.length == qs.length && sameValues ps qs
  | _, _ => false

def sameAll : List Node → List Node → Bool
  | [], [] => true
  | a :: as, b :: bs => same a b && sameAll as bs
  | _, _ => false

def sameCases : List (CasePattern × Node) → List (CasePattern × Node) → Bool
  | [], [] => true
  | (p, a) :: as, (q, b) :: bs => p == q && same a b && sameCases as bs
  | _, _ => false

/-- Whether each key leads to the same value among other pairs. -/
def sameValues : List (String × Node) → List (String × Node) → Bool
  | [], _ => true
  | (key, a) :: rest, pairs =>
    (match pairs.lookup key with
      | some b => same a b
      | none => false) && sameValues rest pairs

end

end Node

def Program.same (p q : Program) : Bool :=
  Node.sameAll p.body q.body

end Offside
