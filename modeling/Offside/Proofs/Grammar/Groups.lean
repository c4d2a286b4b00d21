import Mathlib.Data.List.Forall2
import Offside.Proofs.Grammar.Joining
import Offside.Proofs.Grammar.PrintedLines

/-! # Programs as groups of tokens

A program is cut into its lines where terminators end them. Each group of tokens is a program of one
line, and any programs of one line that end in terminators can stand one behind the other.
-/

namespace Offside

open Cursor (lastKind)

variable {limit room : Nat} {tokens : List Token} {nodes : List Node} {file : String}

/-- Without an end-of-file token, all tokens are read. -/
theorem parse_eq_ok_iff_reads (hcontent : ∀ token ∈ tokens, token.kind ≠ .eof) :
    parse tokens file limit = .ok ⟨nodes⟩ ↔ Reads limit (.lines false .eof nodes) tokens [] := by
  have htake : tokens.takeWhile (·.kind != .eof) = tokens :=
    List.takeWhile_eq_self_iff.2 (by simpa using hcontent)
  have hdrop : tokens.dropWhile (·.kind != .eof) = [] :=
    List.dropWhile_eq_nil_iff.2 (by simpa using hcontent)
  rw [parse_eq_ok_iff, htake, trailing?, hdrop]
  exact and_iff_right rfl

/-- Groups of tokens, of which all but the last end in a terminator. -/
structure Grouped (tokens : List Token) (groups : List (List Token)) : Prop where
  flatten_eq : groups.flatten = tokens
  nonempty : ∀ group ∈ groups, group ≠ []
  ended : ∀ group ∈ groups.dropLast, ∃ token ∈ group.getLast?, token.kind = .terminator

theorem lastKind_eq_some_iff {kind : Kind} {text : List Token} :
    lastKind none text = some kind ↔ ∃ token ∈ text.getLast?, token.kind = kind := by
  simp [lastKind]

theorem grouped_nil_iff : Grouped tokens [] ↔ tokens = [] :=
  ⟨fun h => h.flatten_eq.symm, fun h => ⟨h.symm, nofun, nofun⟩⟩

theorem grouped_cons_iff {group : List Token} {groups : List (List Token)} :
    Grouped tokens (group :: groups) ↔ ∃ rest, tokens = group ++ rest ∧ group ≠ [] ∧
      (groups ≠ [] → lastKind none group = some .terminator) ∧ Grouped rest groups := by
  constructor
  · rintro ⟨rfl, hnonempty, hended⟩
    obtain ⟨hne, hnonempty⟩ := List.forall_mem_cons.1 hnonempty
    refine ⟨groups.flatten, List.flatten_cons, hne, fun hgroups => ?_, rfl, hnonempty, ?_⟩
    · rw [List.dropLast_cons_of_ne_nil hgroups, List.forall_mem_cons] at hended
      exact lastKind_eq_some_iff.2 hended.1
    · by_cases hgroups : groups = []
      · subst hgroups
        exact nofun
      · rw [List.dropLast_cons_of_ne_nil hgroups, List.forall_mem_cons] at hended
        exact hended.2
  · rintro ⟨rest, rfl, hne, hlast, rfl, hnonempty, hended⟩
    refine ⟨List.flatten_cons, List.forall_mem_cons.2 ⟨hne, hnonempty⟩, ?_⟩
    by_cases hgroups : groups = []
    · subst hgroups
      exact nofun
    · rw [List.dropLast_cons_of_ne_nil hgroups, List.forall_mem_cons]
      exact ⟨lastKind_eq_some_iff.1 (hlast hgroups), hended⟩

namespace Reads

/-- The lines of a program can be read each from a group of its own. -/
theorem exists_groups (hcontent : ∀ token ∈ tokens, token.kind ≠ .eof)
    (h : Reads room (.lines false .eof nodes) tokens []) :
    ∃ groups, Grouped tokens groups ∧
      List.Forall₂ (fun group node => Reads room (.lines false .eof [node]) group []) groups
        nodes := by
  induction nodes generalizing tokens with
  | nil =>
    cases h
    exact ⟨[], grouped_nil_iff.2 rfl, .nil⟩
  | cons node nodes ih =>
    have hwhole := h
    cases h with
    | @consLine _ _ _ _ _ _ mid _ hstop hline hended hlines =>
    obtain ⟨text, rfl⟩ := hline.suffix
    obtain ⟨terminators, hterminators, hmid⟩ := exists_terminators mid
    generalize afterTerminators mid = rest at *
    subst hmid
    by_cases hnil : rest = []
    · -- The last line may have been ended by the end of the tokens only.
      subst hnil
      rw [hlines.eq_nil_of_lines] at hwhole ⊢
      refine ⟨[text ++ (terminators ++ [])], ?_, .cons hwhole .nil⟩
      refine grouped_cons_iff.2 ⟨[], (List.append_nil _).symm, ?_, absurd rfl, grouped_nil_iff.2 rfl⟩
      intro hempty
      rw [hempty] at hstop
      exact hstop rfl
    · have hrest : ∀ token ∈ rest, token.kind ≠ .eof := fun token hmem =>
        hcontent token (by simp [hmem])
      obtain ⟨groups, hgroups, hlinesOf⟩ := ih hrest hlines
      have hlast : lastKind none (text ++ terminators) = some .terminator :=
        lastKind_of_ended hnil hrest (by rwa [List.append_assoc])
      have hgroup := lines_cons hcontent hterminators hlast (List.forall_mem_nil _)
        (by decide) hline (Reads.noLine rfl)
      rw [List.append_nil] at hgroup
      refine ⟨(text ++ terminators) :: groups, ?_, .cons hgroup hlinesOf⟩
      refine grouped_cons_iff.2 ⟨rest, (List.append_assoc ..).symm, ?_, fun _ => hlast, hgroups⟩
      intro hempty
      rw [hempty] at hlast
      cases hlast

/-- Lines that are each read from a group of their own are the lines of a program. -/
theorem lines_of_groups {groups : List (List Token)}
    (hcontent : ∀ token ∈ tokens, token.kind ≠ .eof) (hgroups : Grouped tokens groups)
    (h : List.Forall₂ (fun group node => Reads room (.lines false .eof [node]) group []) groups
      nodes) : Reads room (.lines false .eof nodes) tokens [] := by
  induction h generalizing tokens with
  | nil =>
    obtain rfl := grouped_nil_iff.1 hgroups
    exact .noLine rfl
  | @cons group node groups nodes hgroup hmore ih =>
    obtain ⟨rest, rfl, hne, hlast, hrest⟩ := grouped_cons_iff.1 hgroups
    obtain ⟨hcontent, hcontent'⟩ := List.forall_mem_append.1 hcontent
    have hlines := ih hcontent' hrest
    cases hmore with
    | nil =>
      obtain rfl := grouped_nil_iff.1 hrest
      rwa [List.append_nil]
    | @cons next following others more hnext hothers =>
      have hstart : nextKind rest ≠ .terminator := by
        cases hlines with
        | consLine _ hline => exact hline.startsLine.1
      have hended : lastKind none (group ++ []) = some .terminator := by
        rw [List.append_nil]
        exact hlast (List.cons_ne_nil _ _)
      exact lines_append hcontent (List.forall_mem_nil _) hcontent' hstart hne hended hgroup hlines

end Reads

theorem Grouped.kind_ne_eof {groups : List (List Token)} (hgroups : Grouped tokens groups)
    (hcontent : ∀ token ∈ tokens, token.kind ≠ .eof) :
    ∀ group ∈ groups, ∀ token ∈ group, token.kind ≠ .eof := by
  intro group hmem token htoken
  rw [← hgroups.flatten_eq] at hcontent
  exact hcontent token (List.mem_flatten_of_mem hmem htoken)

/-- Programs decompose into lines: a token list stands for some nodes if and only if it can be cut
into groups that end in terminators, the last one with or without, and that stand each for the
program of one of the nodes. -/
theorem parse_eq_ok_iff_grouped (hcontent : ∀ token ∈ tokens, token.kind ≠ .eof) :
    parse tokens file limit = .ok ⟨nodes⟩ ↔ ∃ groups, Grouped tokens groups ∧
      List.Forall₂ (fun group node => parse group file limit = .ok ⟨[node]⟩) groups nodes := by
  rw [parse_eq_ok_iff_reads hcontent]
  constructor
  · intro h
    obtain ⟨groups, hgroups, hlines⟩ := h.exists_groups hcontent
    have hgroup := hgroups.kind_ne_eof hcontent
    refine ⟨groups, hgroups, ((List.forall₂_and_left _ _).2 ⟨hgroup, hlines⟩).imp ?_⟩
    exact fun _ _ h => (parse_eq_ok_iff_reads h.1).2 h.2
  · rintro ⟨groups, hgroups, hlines⟩
    have hgroup := hgroups.kind_ne_eof hcontent
    refine .lines_of_groups hcontent hgroups (((List.forall₂_and_left _ _).2 ⟨hgroup, hlines⟩).imp ?_)
    exact fun _ _ h => (parse_eq_ok_iff_reads h.1).1 h.2

/-- A `do`, which takes the terminator behind its block as its own, and a line without one. -/
theorem parse_eq_ok_iff_grouped_sequence :
    let tokens : List Token :=
      [⟨.kwDo, "do", default⟩, ⟨.identifier, "c", default⟩, ⟨.indent, "indent", default⟩,
       ⟨.identifier, "x", default⟩, ⟨.outdent, "dedent", default⟩,
       ⟨.terminator, "newline", default⟩, ⟨.identifier, "y", default⟩]
    let nodes : List Node := [.sequence (.identifier "c") [.identifier "x"], .identifier "y"]
    (∀ token ∈ tokens, token.kind ≠ .eof) ∧ parse tokens "" 8 = .ok ⟨nodes⟩ ∧
      ∃ groups, Grouped tokens groups ∧
        List.Forall₂ (fun group node => parse group "" 8 = .ok ⟨[node]⟩) groups nodes := by
  intro tokens nodes
  have hcontent : ∀ token ∈ tokens, token.kind ≠ .eof := by decide
  have h : parse tokens "" 8 = .ok ⟨nodes⟩ := by cbv
  exact ⟨hcontent, h, (parse_eq_ok_iff_grouped hcontent).1 h⟩

end Offside
