import Offside.Proofs.Grammar.Joining
import Offside.Proofs.Grammar.Threshold
import Offside.Proofs.Node.Chain

/-! # Parsed chains

An inner expression takes the longest beginning of a chain whose operators all bind tighter than the
given power, and its tree is that of the chain. Each right operand that is read nests one level
deeper and asks for tighter operators, so four levels are enough for a chain of any length.
-/

namespace Offside

open Grammar (applyOperations)

/-! ## Operators -/

namespace Tables

/-- The operators of the standard tables bind as tightly as their kinds say, and join operands as
their kinds say. -/
theorem exists_operator? {kind : Kind} (hkind : kind ∈ Kind.operators) :
    ∃ own operation, standard.operator? kind = some (own, operation) ∧
      own.rank = kind.tightness ∧ operation.node = kind.join := by
  simp only [Kind.operators, List.mem_cons, List.not_mem_nil, or_false] at hkind
  rcases hkind with rfl | rfl | rfl | rfl <;> exact ⟨_, _, rfl, rfl, rfl⟩

theorem exists_tighter? {power : Power} {kind : Kind} (hkind : kind ∈ Kind.operators)
    (hlt : power.rank < kind.tightness) :
    ∃ own operation, standard.tighter? power kind = some (own, operation) ∧
      own.rank = kind.tightness ∧ operation.node = kind.join := by
  obtain ⟨own, operation, hlookup, hrank, hnode⟩ := exists_operator? hkind
  refine ⟨own, operation, ?_, hrank, hnode⟩
  rw [tighter?, hlookup, Option.filter_some, if_pos]
  dsimp only
  rwa [hrank, decide_eq_true_eq]

theorem tighter?_eq_none_of_le {power : Power} {kind : Kind} (hkind : kind ∈ Kind.operators)
    (hle : kind.tightness ≤ power.rank) : standard.tighter? power kind = none := by
  obtain ⟨own, operation, hlookup, hrank, -⟩ := exists_operator? hkind
  rw [tighter?, hlookup, Option.filter_some, if_neg]
  dsimp only
  rwa [hrank, decide_eq_true_eq, Nat.not_lt]

theorem operator?_eq_none {kind : Kind} (hkind : kind ∉ Kind.operators) :
    standard.operator? kind = none := by
  cases kind <;> first | rfl | exact absurd (by decide) hkind

end Tables

/-! ## Operands -/

/-- An operand of a chain: a token on its own, or an expression in parentheses that is parsed with
no more than some number of levels. -/
inductive ChainOperand (levels : Nat) : List Token → Node → Prop where
  | number {token : Token} {value : Binary64} (kind : token.kind = .number)
      (text : Binary64.read? token.value.toList = some value) :
      ChainOperand levels [token] (.number value)
  | string {token : Token} (kind : token.kind = .string) :
      ChainOperand levels [token] (.string token.value)
  | boolean {token : Token} (kind : token.kind = .boolean) :
      ChainOperand levels [token] (.boolean (token.value = "true"))
  | name {token : Token} (kind : token.kind = .identifier) :
      ChainOperand levels [token] (.identifier token.value)
  | enclosed {opening closing : Token} {inner : List Token} {node : Node} {needed : Nat}
      {c c' : Cursor} (opens : opening.kind = .openParen) (closes : closing.kind = .closeParen)
      (ahead : c.ahead = inner ++ [closing]) (fits : needed ≤ levels)
      (parsed : (Nested.within .standard needed needed).expression c = .ok node c')
      (rest : c'.ahead = [closing]) : ChainOperand levels (opening :: (inner ++ [closing])) node

/-- A link whose operator is one and whose operand can be parsed. -/
structure Link.Sound (levels : Nat) (link : Link) : Prop where
  operator : link.operator.kind ∈ Kind.operators
  operand : ChainOperand levels link.operand link.node

variable {levels room : Nat} {rest : List Token}

/-- More levels to open change nothing for an expression that is parsed. -/
theorem Reads.expression_of_within {node : Node} {c c' : Cursor} (hle : levels ≤ room)
    (h : (Nested.within .standard levels levels).expression c = .ok node c') :
    Reads room (.expression node) c.ahead c'.ahead := by
  have hagree : (Nested.within .standard levels levels).Agree levels levels
      (Nested.within .standard room room) := Nested.agree_within hle
  rcases hagree.expression c with ⟨-, position, c'', herror⟩ | ⟨hsame, -⟩
  · rw [herror] at h
    cases h
  · rw [h] at hsame
    exact (Nested.exact_within room room).expression.sound trivial hsame.symm

theorem ChainOperand.reads {tokens : List Token} {node : Node}
    (h : ChainOperand levels tokens node) (hle : levels ≤ room) (hdot : nextKind rest ≠ .dot)
    (hcontent : ∀ token ∈ rest, token.kind ≠ .eof) :
    Reads room (.operand node) (tokens ++ rest) rest := by
  cases h with
  | number kind text => exact .number kind text
  | string kind => exact .string kind
  | boolean kind => exact .boolean kind
  | name kind => exact .accessor kind (.nil hdot)
  | @enclosed opening closing inner _ needed c c' opens closes ahead fits parsed left =>
    have hreads := Reads.expression_of_within (Nat.le_trans fits hle) parsed
    rw [ahead, left] at hreads
    have hinner : ∀ token ∈ inner ++ [closing], token.kind ≠ .eof := fun token hmem =>
      c.kind_ne_eof_of_mem_ahead token (ahead ▸ hmem)
    have hclosing : ∀ token ∈ closing :: rest, token.kind ≠ .eof :=
      List.forall_mem_cons.2 ⟨by rw [closes]; decide, hcontent⟩
    have hends : EndsBefore inner (closing :: rest) := by
      right
      rw [nextKind_cons, closes]
      rfl
    have hbehind := hreads.expression_before hinner hclosing hends
    rw [List.cons_append, List.append_assoc, List.singleton_append]
    exact .grouping opens hbehind closes (.nil hdot)

/-! ## Chains -/

/-- What follows a chain: no operator and no field. -/
def ChainEnds (follow : List Token) : Prop :=
  nextKind follow ∉ Kind.operators ∧ nextKind follow ≠ .dot

/-- The tokens of links with what follows them. -/
def linkTokens (links : List Link) (follow : List Token) : List Token :=
  links.flatMap Link.tokens ++ follow

theorem linkTokens_cons (link : Link) (links : List Link) (follow : List Token) :
    linkTokens (link :: links) follow =
      link.operator :: (link.operand ++ linkTokens links follow) := by
  simp [linkTokens, Link.tokens]

/-- No link begins with a dot. -/
theorem nextKind_linkTokens_ne_dot {links : List Link} {follow : List Token}
    (hlinks : ∀ link ∈ links, link.Sound levels) (hfollow : ChainEnds follow) :
    nextKind (linkTokens links follow) ≠ .dot := by
  cases links with
  | nil => exact hfollow.2
  | cons link links =>
    have hoperator := (hlinks link List.mem_cons_self).operator
    rw [linkTokens_cons, nextKind_cons]
    intro hdot
    rw [hdot] at hoperator
    exact absurd hoperator (by decide)

/-- The operations behind an operand are the links up to the first one that does not bind tighter
than the power, and from the left they make the tree of these links. -/
theorem Reads.operations_of_links {links : List Link} {follow : List Token} {power : Power}
    (hlinks : ∀ link ∈ links, link.Sound levels) (hfollow : ChainEnds follow)
    (hcontent : ∀ token ∈ linkTokens links follow, token.kind ≠ .eof)
    (hroom : levels + 3 ≤ room + power.rank) :
    ∃ items, Reads room (.operations power items) (linkTokens links follow)
        (linkTokens (Link.others power.rank links) follow) ∧
      ∀ left, applyOperations left items = chainTree left (Link.tighter power.rank links) := by
  -- An operator takes the links behind it that bind tighter still, with its own power, and then the
  -- chain goes on with what is left: both are shorter.
  induction hlength : links.length using Nat.strong_induction_on generalizing links power room with
  | h length ih =>
    subst hlength
    cases links with
    | nil =>
      refine ⟨[], .noOperation ?_, fun left => (chainTree_nil left).symm⟩
      exact Tables.tighter?_eq_none (Tables.operator?_eq_none hfollow.1) power
    | cons link rest =>
      obtain ⟨hlink, hrest⟩ := List.forall_mem_cons.1 hlinks
      rw [linkTokens_cons] at hcontent ⊢
      rcases Nat.lt_or_ge power.rank link.tightness with hlt | hle
      · obtain ⟨own, operation, htighter, hrank, hnode⟩ :=
          Tables.exists_tighter? hlink.operator hlt
        replace hrank : own.rank = link.tightness := hrank
        have htightness : link.tightness ≤ 3 := Kind.tightness_le link.operator.kind
        obtain ⟨room, rfl⟩ : ∃ fewer, room = fewer + 1 := ⟨room - 1, by omega⟩
        have hbehind : ∀ token ∈ linkTokens rest follow, token.kind ≠ .eof := fun token hmem =>
          hcontent token (by simp [hmem])
        obtain ⟨inside, hinside, hright⟩ :=
          ih rest.length (by simp) hrest hbehind (by omega : levels + 3 ≤ room + own.rank) rfl
        have hdot := nextKind_linkTokens_ne_dot hrest hfollow
        have hread := Reads.inner (hlink.operand.reads (by omega) hdot hbehind) hinside
        rw [hright, hrank] at hread
        have hsplit := Link.tighter_append_others link.tightness rest
        have hothers : ∀ other ∈ Link.others link.tightness rest, other.Sound levels :=
          fun other hmem => hrest other (hsplit ▸ List.mem_append_right _ hmem)
        have hleft : ∀ token ∈ linkTokens (Link.others link.tightness rest) follow,
            token.kind ≠ .eof := by
          intro token hmem
          apply hbehind
          rw [← hsplit, linkTokens, List.flatMap_append, List.append_assoc]
          exact List.mem_append_right _ hmem
        obtain ⟨items, hitems, htree⟩ :=
          ih (Link.others link.tightness rest).length
            (Nat.lt_succ_of_le (List.dropWhile_suffix _).length_le) hothers hleft hroom rfl
        let right := chainTree link.node (Link.tighter link.tightness rest)
        refine ⟨(operation, link.operator.value, right) :: items, ?_, fun left => ?_⟩
        · rw [(Link.tighter_cons hlt rest).2]
          exact .consOperation htighter hread hitems
        · rw [Link.chainTree_tighter_cons hlt, ← htree, Link.join, ← hnode]
          rfl
      · obtain ⟨hnone, hall⟩ := Link.tighter_cons_of_le hle rest
        rw [hnone, hall, linkTokens_cons]
        refine ⟨[], .noOperation ?_, fun left => (chainTree_nil left).symm⟩
        exact Tables.tighter?_eq_none_of_le hlink.operator hle

/-- An inner expression at any depth takes the longest beginning of a chain whose operators bind
tighter than the power, and answers with its tree. It takes four levels and those of the operands in
parentheses, however long the chain is. -/
theorem inner_of_chain {levels depth limit : Nat} {power : Power} {first : List Token} {node : Node}
    {links : List Link} {follow : List Token} {c : Cursor} (hfirst : ChainOperand levels first node)
    (hlinks : ∀ link ∈ links, link.Sound levels) (hfollow : ChainEnds follow)
    (hahead : c.ahead = first ++ linkTokens links follow) (hlimit : depth + levels + 4 ≤ limit) :
    ∃ c', (Grammar.within .standard limit (limit - depth)).nested.inner power c =
        .ok (chainTree node (Link.tighter power.rank links)) c' ∧
      c.Reaches c' ∧ c'.ahead = linkTokens (Link.others power.rank links) follow := by
  obtain ⟨room, hroom⟩ : ∃ room, limit - depth = room + 1 := ⟨limit - depth - 1, by omega⟩
  have hcontent : ∀ token ∈ linkTokens links follow, token.kind ≠ .eof := fun token hmem =>
    c.kind_ne_eof_of_mem_ahead token (hahead ▸ List.mem_append_right _ hmem)
  obtain ⟨items, hitems, htree⟩ :=
    Reads.operations_of_links hlinks hfollow hcontent (by omega : levels + 3 ≤ room + power.rank)
  have hdot := nextKind_linkTokens_ne_dot hlinks hfollow
  have hreads := Reads.inner (hfirst.reads (by omega) hdot hcontent) hitems
  rw [htree, ← hahead, ← hroom] at hreads
  have hinner := (Nested.exact_within limit (limit - depth)).inner power
  obtain ⟨c', hrun, hrest⟩ := hinner.complete trivial hreads
  exact ⟨c', hrun, hinner.reaches trivial hrun, hrest⟩

/-- Up to a comparison, where only tighter operators are asked for. -/
theorem inner_of_chain_additive :
    let token (kind : Kind) (text : String) : Token := ⟨kind, text, default⟩
    let sum : Link := ⟨token .plus "+", [token .identifier "y"], .identifier "y"⟩
    let product : Link := ⟨token .math "*",
      token .openParen "(" :: ([token .identifier "z"] ++ [token .closeParen ")"]), .identifier "z"⟩
    let comparison : Link := ⟨token .compare "<", [token .string "w"], .string "w"⟩
    let comma := token .comma ","
    let c := Cursor.ofTokens
      ([token .identifier "x"] ++ linkTokens [sum, product, comparison] [comma]) ""
    ∃ c', (Grammar.within .standard 6 (6 - 1)).nested.inner .relational c =
        .ok (.arithmetic "+" (.identifier "x")
          (.arithmetic "*" (.identifier "y") (.identifier "z"))) c' ∧
      c.Reaches c' ∧ c'.ahead = linkTokens [comparison] [comma] := by
  intro token sum product comparison comma c
  have hsum : sum.Sound 1 := ⟨by decide, .name rfl⟩
  have hproduct : product.Sound 1 :=
    ⟨by decide, .enclosed (c := Cursor.ofTokens [token .identifier "z", token .closeParen ")"] "")
      rfl rfl rfl (Nat.le_refl 1) rfl rfl⟩
  have hcomparison : comparison.Sound 1 := ⟨by decide, .string rfl⟩
  have hlinks : ∀ link ∈ [sum, product, comparison], link.Sound 1 := by
    rw [List.forall_mem_cons, List.forall_mem_cons, List.forall_mem_singleton]
    exact ⟨hsum, hproduct, hcomparison⟩
  have hfollow : ChainEnds [comma] := ⟨by decide, by decide⟩
  have hfirst : ChainOperand 1 [token .identifier "x"] (.identifier "x") := .name rfl
  have htree : chainTree (.identifier "x") (Link.tighter 1 [sum, product, comparison]) =
      .arithmetic "+" (.identifier "x")
        (.arithmetic "*" (.identifier "y") (.identifier "z")) := by cbv
  rw [← htree]
  exact inner_of_chain hfirst hlinks hfollow rfl (Nat.le_refl 6)

end Offside
