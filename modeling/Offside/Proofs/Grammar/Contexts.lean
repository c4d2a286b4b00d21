import Offside.Proofs.Grammar.CorrectPrefix
import Offside.Proofs.Grammar.Exact

/-! # Reading in another context

What is read off a text somewhere is read off it wherever else the text may end, with as many levels
or more. An expression may end behind a terminator of its own and before a token that no expression
goes on with.
-/

namespace Offside

open Cursor (Passes lastKind)

variable {α : Type} {room : Nat} {text rest rest' : List Token} {before : Option Kind} {v : α}

/-- What follows a text that is read up to its end: anything behind a terminator, and otherwise
something that no expression goes on with. -/
def EndsBefore (text rest : List Token) : Prop :=
  lastKind none text = some .terminator ∨ (nextKind rest).closes = true

theorem lastKind_of_ne_nil (hne : text ≠ []) (before before' : Option Kind) :
    lastKind before text = lastKind before' text := by
  obtain ⟨init, token, rfl⟩ := (List.eq_nil_or_concat' text).resolve_left hne
  simp [lastKind]

theorem lastKind_of_forall {kind : Kind} (h : ∀ token ∈ text, token.kind = kind) (hne : text ≠ [])
    (before : Option Kind) : lastKind before text = some kind := by
  obtain ⟨init, token, rfl⟩ := (List.eq_nil_or_concat' text).resolve_left hne
  simp [lastKind, h token (by simp)]

theorem EndsBefore.of_cons {token : Token} (h : EndsBefore (token :: text) rest)
    (hkind : token.kind ≠ .terminator) : EndsBefore text rest := by
  refine h.imp_left fun hlast => ?_
  rw [← List.singleton_append, Cursor.lastKind_append] at hlast
  by_cases hnil : text = []
  · subst hnil
    exact absurd (Option.some.inj hlast) hkind
  · rwa [lastKind_of_ne_nil hnil] at hlast

theorem endsBefore_of_kind {token : Token} {kind : Kind} (hkind : token.kind = kind)
    (hcloses : kind.closes = true) : EndsBefore text (token :: rest) :=
  .inr (by rwa [nextKind_cons, hkind])

theorem lineEnded_append_right (text rest : List Token) :
    lineEnded (text ++ rest) rest = decide (lastKind none text = some .terminator) := by
  rw [lineEnded, List.take_left' (by simp), lastKind, Option.or_none]

theorem nextKind_afterTerminators_ne (input : List Token) :
    nextKind (afterTerminators input) ≠ .terminator := by
  have hstop := List.head?_dropWhile_not (fun token : Token => token.kind = .terminator) input
  cases hrest : afterTerminators input with
  | nil => exact nofun
  | cons token rest =>
    rw [afterTerminators] at hrest
    simpa [hrest] using hstop

theorem EndsBefore.mayEnd {c : Cursor} (h : EndsBefore text rest)
    (hlast : c.previous? = lastKind before text) (hnext : c.kind = nextKind rest) :
    Production.MayEnd c := by
  rcases h with hterminator | hcloses
  · left
    rw [lastKind, Option.or_none] at hterminator
    rw [hlast, lastKind, hterminator, Option.some_or]
  · right
    rwa [hnext]

/-- Where a parse accepts what is read off a text, its run passes that text. -/
theorem Parse.AcceptsOn.run_of_passes {P : Cursor → Prop} {p : Parse α} {R : Reading α}
    {c c' : Cursor} (h : p.AcceptsOn P R) (hc : P c) (hpasses : Passes text c c')
    (hreads : R v (text ++ c'.ahead) c'.ahead) : p c = .ok v c' := by
  rw [← hpasses.1] at hreads
  obtain ⟨d, hrun, hrest⟩ := h.complete hc hreads
  obtain ⟨taken, hpasses'⟩ := Passes.exists_of_reaches (h.reaches hc hrun)
  obtain rfl : taken = text :=
    List.append_cancel_right ((hrest ▸ hpasses'.1).symm.trans hpasses.1)
  rw [hrun, hpasses'.unique hpasses]

namespace Production

variable {n limit : Nat} {p : Production α} {F : Cursor → Prop} {R : Reading α}

/-- What a production takes is read before any tokens that the text may end before. -/
theorem Takes.reads (h : Takes n p F before v text) (hroom : n ≤ room)
    (haccepts : (p (.within .standard limit room)).Accepts R)
    (hcontent : ∀ token ∈ rest, token.kind ≠ .eof)
    (hends : ∀ c : Cursor, c.previous? = lastKind before text → c.kind = nextKind rest → F c) :
    R v (text ++ rest) rest := by
  obtain ⟨c, c', hpasses, hbefore, rfl⟩ :=
    Cursor.exists_passes_before (List.forall_mem_append.2 ⟨h.content, hcontent⟩) before
  have hend := hends c' (hbefore ▸ hpasses.previous?_eq) c'.kind_eq_nextKind
  have hreads := haccepts.sound trivial (h.run limit hroom hbefore hpasses hend)
  rwa [hpasses.1] at hreads

/-- What is read off a text is read off it before any tokens that it may end before. -/
theorem Resumes.reads (h : Resumes room p MayEnd)
    (haccepts : ∀ limit, (p (.within .standard limit room)).Accepts R)
    (hcontent : ∀ token ∈ text ++ rest, token.kind ≠ .eof)
    (hcontent' : ∀ token ∈ rest', token.kind ≠ .eof) (hends : EndsBefore text rest')
    (hreads : R v (text ++ rest) rest) : R v (text ++ rest') rest' := by
  obtain ⟨c, c', hpasses, -, rfl⟩ := Cursor.exists_passes_before hcontent none
  obtain ⟨taken, hpasses', htakes⟩ :=
    h.moves 0 ((haccepts 0).run_of_passes trivial hpasses hreads)
  obtain rfl : text = taken := List.append_cancel_right (hpasses.1.symm.trans hpasses'.1)
  exact htakes.reads (Nat.le_refl room) (haccepts 0) hcontent' fun d => hends.mayEnd

/-- A run somewhere reads a text as a value: all of it, and nothing behind it. -/
def Covers (p : Production α) (v : α) (text : List Token) : Prop :=
  ∃ limit room c c', p (.within .standard limit room) c = .ok v c' ∧ Passes text c c'

theorem Covers.exists_takes (hp : ∀ room, Resumes room p F) (h : Covers p v text) :
    ∃ n before, Takes n p F before v text := by
  obtain ⟨limit, room, c, c', hrun, hpasses⟩ := h
  obtain ⟨taken, hpasses', htakes⟩ := (hp room).moves limit hrun
  obtain rfl : text = taken := List.append_cancel_right (hpasses.1.symm.trans hpasses'.1)
  exact ⟨room, c.previous?, htakes⟩

end Production

/-- With enough levels left, a phrase is read off a text before any tokens that meet a condition. -/
def Phrase.ReadOff (phrase : Phrase) (text : List Token) (ends : List Token → Prop) : Prop :=
  ∃ levels, ∀ ⦃room rest⦄, levels ≤ room → (∀ token ∈ text ++ rest, token.kind ≠ .eof) →
    ends rest → Reads room phrase (text ++ rest) rest

open Production

theorem Production.Covers.readOff_expression {node : Node}
    (h : Covers (fun nested => nested.expression) node text) :
    (Phrase.expression node).ReadOff text (EndsBefore text) := by
  obtain ⟨n, before, htakes⟩ :=
    h.exists_takes fun room => (completable room).expression.toResumes
  refine ⟨n, fun room rest hroom hcontent hends => ?_⟩
  exact htakes.reads (R := fun node => Reads room (.expression node)) hroom
    (Nested.exact_within 0 room).expression (List.forall_mem_append.1 hcontent).2
    fun c => hends.mayEnd

theorem Production.Covers.readOff_inner {power : Power} {node : Node}
    (h : Covers (fun nested => nested.inner power) node text) :
    (Phrase.inner power node).ReadOff text fun rest =>
      Tables.standard.tighter? power (nextKind rest) = none ∧ nextKind rest ≠ .dot := by
  obtain ⟨n, before, htakes⟩ :=
    h.exists_takes fun room => ((completable room).inner power).toResumes
  refine ⟨n, fun room rest hroom hcontent hends => ?_⟩
  refine htakes.reads (R := fun node => Reads room (.inner power node)) hroom
    ((Nested.exact_within 0 room).inner power) (List.forall_mem_append.1 hcontent).2
    fun c _ hnext => ?_
  rwa [InnerEnds, hnext]

namespace Reads

theorem expression_before {node : Node} (hcontent : ∀ token ∈ text ++ rest, token.kind ≠ .eof)
    (hcontent' : ∀ token ∈ rest', token.kind ≠ .eof) (hends : EndsBefore text rest')
    (h : Reads room (.expression node) (text ++ rest) rest) :
    Reads room (.expression node) (text ++ rest') rest' :=
  (Production.completable room).expression.toResumes.reads
    (R := fun node => Reads room (.expression node))
    (fun limit => (Nested.exact_within limit room).expression) hcontent hcontent' hends h

theorem line_before {node : Node} (hcontent : ∀ token ∈ text ++ rest, token.kind ≠ .eof)
    (hcontent' : ∀ token ∈ rest', token.kind ≠ .eof) (hends : EndsBefore text rest')
    (h : Reads room (.line false node) (text ++ rest) rest) :
    Reads room (.line false node) (text ++ rest') rest' :=
  (Production.resumes_line (Production.completable room)).reads
    (R := fun node => Reads room (.line false node))
    (fun limit => (Grammar.accepts_line (P := fun _ => True) (Nested.exact_within limit room)).mono
      fun _ _ => ⟨trivial, nofun⟩) hcontent hcontent' hends h

end Reads

end Offside
