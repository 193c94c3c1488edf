import Mathlib.Data.List.Forall2
import Pathwise.Proofs.Coverable.Form
import Pathwise.Proofs.Freshness
import Pathwise.Proofs.Renumbering.Pointer
import Pathwise.Proofs.Scalar.Reading
import Pathwise.Proofs.Scoping.Group

/-!
# Pathwise.Proofs.Renumbering.Correspondence

Answers that are the same up to numbers. A `Correspondence` relates the sites of
two runs of an engine, and for each type the pointers of its objects; two groups
correspond if one becomes the other when site suffixes and pointers are replaced
accordingly (`PathGroup.Corresponds`).

If the correspondence is one-to-one and methods have different symbols, the
constants and the terms that it relates are related one-to-one too
(`Correspondence.biUnique_constants`, `Sexp.Rel.biUnique`).
-/

namespace Pathwise

open Relator (LeftUnique RightUnique BiUnique)
open List (Forall₂)

/-! ## terms of one shape -/

namespace Sexp

/-- Terms of the same shape whose atoms are related; string literals are the same. -/
inductive Rel (R : String → String → Prop) : Sexp → Sexp → Prop where
  | atom {x y : String} (h : R x y) : Rel R (.atom x) (.atom y)
  | quoted (text : String) : Rel R (.quoted text) (.quoted text)
  | list {as bs : List Sexp} (h : Forall₂ (Rel R) as bs) : Rel R (.list as) (.list bs)

namespace Rel

variable {R S : String → String → Prop} {a b : Sexp}

/-- Induction over two terms of one shape. -/
@[elab_as_elim]
theorem induction {P : (a b : Sexp) → Rel R a b → Prop}
    (atom : ∀ x y (h : R x y), P (.atom x) (.atom y) (.atom h))
    (quoted : ∀ text, P (.quoted text) (.quoted text) (.quoted text))
    (list : ∀ as bs (h : Forall₂ (Rel R) as bs), Forall₂ (fun a b => ∃ hab, P a b hab) as bs →
      P (.list as) (.list bs) (.list h))
    (h : Rel R a b) : P a b h := by
  refine Rel.rec (motive_2 := fun as bs _ => Forall₂ (fun a b => ∃ hab, P a b hab) as bs)
    ?_ ?_ ?_ ?_ ?_ h
  · exact fun hx => atom _ _ hx
  · exact quoted
  · exact fun has ih => list _ _ has ih
  · exact .nil
  · exact fun hab _ ih ihs => .cons ⟨hab, ih⟩ ihs

theorem app {f g : String} {as bs : List Sexp} (hf : R f g) (h : Forall₂ (Rel R) as bs) :
    Rel R (.app f as) (.app g bs) := .list (.cons (.atom hf) h)

theorem eq {a' b' : Sexp} (hf : R "=" "=") (ha : Rel R a a') (hb : Rel R b b') :
    Rel R (.eq a b) (.eq a' b') := .app hf (.cons ha (.cons hb .nil))

theorem mono (h : ∀ x y, R x y → S x y) (hab : Rel R a b) : Rel S a b := by
  induction hab using Rel.induction with
  | atom x y hx => exact .atom (h x y hx)
  | quoted t => exact .quoted t
  | list as bs _ ih => exact .list (ih.imp fun _ _ hab => hab.2)

theorem swap (hab : Rel R a b) : Rel (fun x y => R y x) b a := by
  induction hab using Rel.induction with
  | atom x y hx => exact .atom hx
  | quoted t => exact .quoted t
  | list as bs _ ih => exact .list (ih.flip.imp fun _ _ hab => hab.2)

/-- Related terms determine the left one. -/
theorem leftUnique (hR : LeftUnique R) : LeftUnique (Rel R) := by
  intro a a' b hab
  induction hab using Rel.induction generalizing a' with
  | atom x y hx =>
      intro h
      cases h with
      | atom hx' => rw [hR hx hx']
  | quoted t =>
      intro h
      cases h with
      | quoted => rfl
  | list as bs hab ih =>
      clear hab
      intro h
      cases h with
      | @list as' _ has =>
          refine congrArg Sexp.list ?_
          induction ih generalizing as' with
          | nil =>
              cases has
              rfl
          | cons ha _ ih =>
              cases has with
              | cons ha' has =>
                  obtain ⟨-, hunique⟩ := ha
                  rw [hunique ha', ih has]

/-- Related terms determine the right one. -/
theorem rightUnique (hR : RightUnique R) : RightUnique (Rel R) := by
  intro a b b' h h'
  have hswap : LeftUnique fun x y => R y x := fun _ _ _ hx hy => hR hx hy
  exact leftUnique hswap h.swap h'.swap

/-- Terms are related one-to-one if their atoms are. -/
theorem biUnique (hR : BiUnique R) : BiUnique (Rel R) := ⟨leftUnique hR.1, rightUnique hR.2⟩

end Rel

/-- Two renamings of one term. -/
theorem Rel.mapAtoms {R : String → String → Prop} {f g : String → String} {a : Sexp}
    (h : ∀ x ∈ a.atoms, R (f x) (g x)) : Rel R (a.mapAtoms f) (a.mapAtoms g) := by
  induction a using Sexp.induction with
  | atom x => exact .atom (h x (List.mem_singleton_self x))
  | quoted t => exact .quoted t
  | list as ih =>
      refine .list ?_
      rw [atoms] at h
      induction as with
      | nil => exact .nil
      | cons a as ih' =>
          rw [List.forall_mem_cons] at ih
          rw [atomsList, List.forall_mem_append] at h
          exact .cons (ih.1 h.1) (ih' ih.2 h.2)

end Sexp

/-! ## corresponding constants -/

/-- Which sites of two runs are the same but for their numbers, and which pointers, for the type
they were numbered for. -/
structure Correspondence where
  sites : Site → Site → Prop
  pointers : TypeRef → Nat → Nat → Prop

/-- Sites of the same methods are related one-to-one, and so are the pointers of each type. -/
structure Correspondence.OneToOne (κ : Correspondence) : Prop where
  method : ∀ s t, κ.sites s t → s.method = t.method
  sites : BiUnique κ.sites
  pointers : ∀ type, BiUnique (κ.pointers type)

/-- Resolved methods have different symbols. -/
def Engine.Distinct (e : Engine) : Prop :=
  ∀ m m' f f', e.form? m = some f → e.form? m' = some f' → f.method.symbol = f'.method.symbol →
    m = m'

namespace Correspondence

variable {κ κ' : Correspondence} {e : Engine} {x y x' y' : String}

/-- The constants of one slot at two sites that correspond. -/
inductive Slots (κ : Correspondence) (e : Engine) : String → String → Prop where
  | at {s t : Site} {f : Form} (hs : κ.sites s t) (hf : e.form? s.method = some f) (slot : Slot) :
      Slots κ e (s.constant f.method slot) (t.constant f.method slot)

/-- A constant without a mark corresponds to itself, and one with a mark to that of the same local
slot at a corresponding site. -/
inductive Constants (κ : Correspondence) (e : Engine) : String → String → Prop where
  | plain {x : String} (h : '!' ∉ x.toList) : Constants κ e x x
  | ofSite {s t : Site} {f : Form} {slot : Slot} (hs : κ.sites s t)
      (hf : e.form? s.method = some f) (hslot : slot.isLocal) :
      Constants κ e (s.constant f.method slot) (t.constant f.method slot)

/-- Terms with corresponding constants. -/
def Terms (κ : Correspondence) (e : Engine) : Sexp → Sexp → Prop := Sexp.Rel (κ.Constants e)

theorem Slots.constants (h : κ.Slots e x y) : κ.Constants e x y := by
  obtain @⟨s, t, f, hs, hf, slot⟩ := h
  by_cases hslot : slot.isLocal
  · exact .ofSite hs hf hslot
  · have hplain : s.constant f.method slot = t.constant f.method slot := by
      rw [Site.constant, Site.constant, if_neg hslot, if_neg hslot]
    rw [hplain]
    refine .plain fun hmark => hslot ?_
    exact (t.mark_mem_constant_iff f.method slot).1 hmark

/-- An invocation can be told from its constants, if methods have different symbols. -/
theorem eq_of_constant (he : e.Distinct) {s s' : Site} {f f' : Form} {slot slot' : Slot}
    (hf : e.form? s.method = some f) (hf' : e.form? s'.method = some f') (hslot : slot.isLocal)
    (hslot' : slot'.isLocal) (h : s.constant f.method slot = s'.constant f'.method slot') :
    s = s' ∧ f = f' ∧ slot = slot' := by
  rw [Site.constant_of_isLocal _ _ hslot, Site.constant_of_isLocal _ _ hslot'] at h
  obtain ⟨hsymbol, rfl⟩ := MethodRef.slotSymbol_inj hslot hslot' h
  have hmethod := he _ _ f f' hf hf' hsymbol
  obtain rfl : f = f' := by
    rw [hmethod] at hf
    exact Option.some.inj (hf.symm.trans hf')
  rw [String.append_right_inj] at h
  obtain ⟨hsequence, horder⟩ := Site.suffix_inj h
  refine ⟨?_, rfl, rfl⟩
  obtain ⟨method, sequence, callOrder⟩ := s
  obtain ⟨method', sequence', callOrder'⟩ := s'
  simp_all

/-- Constants correspond one to one. -/
theorem Constants.eq_iff (hκ : κ.OneToOne) (he : e.Distinct) (h : κ.Constants e x y)
    (h' : κ.Constants e x' y') : x = x' ↔ y = y' := by
  cases h with
  | plain h =>
      cases h' with
      | plain h' => exact Iff.rfl
      | ofSite hs hf hslot =>
          constructor <;> rintro rfl <;>
            exact absurd (by simp [hslot, Site.mark_mem_constant_iff]) h
  | @ofSite s t f slot hs hf hslot =>
      cases h' with
      | plain h' =>
          constructor <;> rintro rfl <;>
            exact absurd (by simp [hslot, Site.mark_mem_constant_iff]) h'
      | @ofSite s' t' f' slot' hs' hf' hslot' =>
          constructor
          · intro heq
            obtain ⟨rfl, rfl, rfl⟩ := eq_of_constant he hf hf' hslot hslot' heq
            rw [hκ.sites.2 hs hs']
          · intro heq
            rw [hκ.method s t hs] at hf
            rw [hκ.method s' t' hs'] at hf'
            obtain ⟨rfl, rfl, rfl⟩ := eq_of_constant he hf hf' hslot hslot' heq
            rw [hκ.sites.1 hs hs']

/-- **Constants are related one-to-one.** -/
theorem biUnique_constants (hκ : κ.OneToOne) (he : e.Distinct) : BiUnique (κ.Constants e) :=
  ⟨fun _ _ _ h h' => (h.eq_iff hκ he h').2 rfl, fun _ _ _ h h' => (h.eq_iff hκ he h').1 rfl⟩

/-- What corresponds stays so if more sites and pointers do. -/
structure Le (κ κ' : Correspondence) : Prop where
  sites : ∀ s t, κ.sites s t → κ'.sites s t
  pointers : ∀ type m n, κ.pointers type m n → κ'.pointers type m n

theorem Slots.mono (hκ : κ.Le κ') (h : κ.Slots e x y) : κ'.Slots e x y := by
  obtain ⟨hs, hf, slot⟩ := h
  exact .at (hκ.sites _ _ hs) hf slot

theorem Constants.mono (hκ : κ.Le κ') (h : κ.Constants e x y) : κ'.Constants e x y := by
  cases h with
  | plain h => exact .plain h
  | ofSite hs hf hslot => exact .ofSite (hκ.sites _ _ hs) hf hslot

theorem Terms.mono (hκ : κ.Le κ') {a b : Sexp} (h : κ.Terms e a b) : κ'.Terms e a b :=
  Sexp.Rel.mono (fun _ _ hx => hx.mono hκ) h

/-- The texts of corresponding terms. -/
def Texts (κ : Correspondence) (e : Engine) (x y : String) : Prop :=
  ∃ a b, κ.Terms e a b ∧ x = a.render ∧ y = b.render

theorem isAtomChar_of_mem_constant (s : Site) (m : MethodRef) (slot : Slot) {c : Char}
    (h : c ∈ (s.constant m slot).toList) : Sexp.isAtomChar c = true := by
  have hslot := (m.isAtom_slotSymbol slot).2
  unfold Site.constant at h
  split at h
  · exact Sexp.isPlain_append.2 ⟨Sexp.isPlain_append.2 ⟨hslot, by decide⟩, s.isPlain_suffix⟩ c h
  · exact hslot c h

theorem Slots.isAtomChar (h : κ.Slots e x y) :
    (∀ c ∈ x.toList, Sexp.isAtomChar c = true) ∧ ∀ c ∈ y.toList, Sexp.isAtomChar c = true := by
  obtain ⟨hs, hf, slot⟩ := h
  exact ⟨fun c => isAtomChar_of_mem_constant _ _ slot, fun c => isAtomChar_of_mem_constant _ _ slot⟩

/-- A term is the constant of a slot exactly if the corresponding one is. -/
theorem Terms.render_eq_iff (hκ : κ.OneToOne) (he : e.Distinct) {a b : Sexp}
    (h : κ.Terms e a b) (hx : κ.Slots e x y) : a.render = x ↔ b.render = y := by
  obtain ⟨hleft, hright⟩ := hx.isAtomChar
  -- only an atom is written without quotes and brackets
  have hother : ∀ c, Sexp.isAtomChar c = false → c ∈ a.render.toList → c ∈ b.render.toList →
      (a.render = x ↔ b.render = y) := by
    intro c hc ha hb
    constructor
    · rintro rfl
      simp [hleft c ha] at hc
    · rintro rfl
      simp [hright c hb] at hc
  cases h with
  | atom h =>
      rw [Sexp.render, Sexp.render]
      exact h.eq_iff hκ he hx.constants
  | quoted t =>
      have hquote : '"' ∈ (Sexp.quoted t).render.toList := by simp [Sexp.render, Sexp.quote]
      exact hother '"' (by decide) hquote hquote
  | @list as bs _ =>
      have hopen : ∀ es : List Sexp, '(' ∈ (Sexp.list es).render.toList := by
        intro es
        cases es <;> simp [Sexp.render]
      exact hother '(' (by decide) (hopen as) (hopen bs)

end Correspondence

/-! ## corresponding lines -/

/-- A method with a statement at an offset that allocates an object of a type. -/
def Engine.Allocates (e : Engine) (m : MethodRef) (offset : Nat) (type : TypeRef) : Prop :=
  ∃ f, e.form? m = some f ∧ ∃ p ∈ f.statements, p.statement.offset = offset ∧
    type ∈ p.statement.effect.allocated?

namespace Correspondence

variable {κ κ' : Correspondence} {e : Engine} {a b c : Sexp}

/-- Assertions that correspond: that an object has its pointer, and terms with corresponding
constants that say nothing of the kind. The pointers correspond as those of the type that the place
of the allocation was numbered for, which is the type of the object unless one offset of a method
stands for several allocations. -/
inductive Asserted (κ : Correspondence) (e : Engine) : Sexp → Sexp → Prop where
  | term {a b : Sexp} (h : κ.Terms e a b) (hsilent : ¬ a.StatesPointer) : Asserted κ e a b
  | pointer {type numbered : TypeRef} {s : Sentence} {m : MethodRef} {offset : Nat} {x y : String}
      {i j : Nat} (hs : e.types.find? type = some s) (htype : e.Allocates m offset type)
      (hnumbered : e.Allocates m offset numbered) (hx : κ.Constants e x y)
      (hpointer : κ.pointers numbered i j) :
      Asserted κ e (.eq (.app s.pointerAccessor [.atom x]) (.nat i))
        (.eq (.app s.pointerAccessor [.atom y]) (.nat j))

/-- More correspondences keep assertions. -/
theorem Asserted.mono (hκ : κ.Le κ') (h : κ.Asserted e a b) : κ'.Asserted e a b := by
  cases h with
  | term h hsilent => exact .term (h.mono hκ) hsilent
  | pointer hs htype hnumbered hx hpointer =>
      exact .pointer hs htype hnumbered (hx.mono hκ) (hκ.pointers _ _ _ hpointer)

section Unique

variable (hκ : κ.OneToOne) (he : e.Distinct)

include hκ he

/-- An equation corresponds to an equation. -/
theorem Asserted.head_iff (h : κ.Asserted e a b) :
    a.head? = some "=" ↔ b.head? = some "=" := by
  cases h with
  | pointer => exact Iff.rfl
  | term h _ =>
      cases h with
      | atom h => exact Iff.rfl
      | quoted t => exact Iff.rfl
      | list h =>
          cases h with
          | nil => exact Iff.rfl
          | cons hhead _ =>
              cases hhead with
              | quoted t => exact Iff.rfl
              | list h => exact Iff.rfl
              | atom h =>
                  have hequals : κ.Constants e "=" "=" := .plain (by decide)
                  simp [Sexp.head?, h.eq_iff hκ he hequals]

/-- What one assertion corresponds to is the same, or two equations. -/
theorem Asserted.right_cases (h : κ.Asserted e a b) (h' : κ.Asserted e a c) :
    b = c ∨ b.head? = some "=" ∧ c.head? = some "=" := by
  have hb := h.head_iff hκ he
  have hc := h'.head_iff hκ he
  cases h with
  | pointer => exact Or.inr ⟨hb.1 rfl, hc.1 rfl⟩
  | term hab _ =>
      cases h' with
      | pointer => exact Or.inr ⟨hb.1 rfl, hc.1 rfl⟩
      | term hac _ => exact Or.inl ((Sexp.Rel.biUnique (biUnique_constants hκ he)).2 hab hac)

theorem Asserted.left_cases (h : κ.Asserted e a c) (h' : κ.Asserted e b c) :
    a = b ∨ a.head? = some "=" ∧ b.head? = some "=" := by
  have ha := h.head_iff hκ he
  have hb := h'.head_iff hκ he
  cases h with
  | pointer => exact Or.inr ⟨ha.2 rfl, hb.2 rfl⟩
  | term hac _ =>
      cases h' with
      | pointer => exact Or.inr ⟨ha.2 rfl, hb.2 rfl⟩
      | term hbc _ => exact Or.inl ((Sexp.Rel.biUnique (biUnique_constants hκ he)).1 hac hbc)

end Unique

end Correspondence

/-- Lines that correspond. The sorts of declarations are the same. -/
inductive Line.Corresponds (κ : Correspondence) (e : Engine) : Line → Line → Prop where
  | declare {x y : String} (h : κ.Constants e x y) (sort : Sexp) :
      Corresponds κ e (.declare x sort) (.declare y sort)
  | assert {a b : Sexp} (h : κ.Asserted e a b) : Corresponds κ e (.assert a) (.assert b)

/-- Groups that correspond. -/
structure PathGroup.Corresponds (κ : Correspondence) (e : Engine) (g g' : PathGroup) : Prop where
  method : g.method = g'.method
  site : κ.sites g.site g'.site
  lines : Forall₂ (Line.Corresponds κ e) g.lines g'.lines
  exit : g.exit = g'.exit
  returnValue : Option.Rel (κ.Terms e) g.returnValue g'.returnValue
  returnOrigin : Option.Rel (κ.Texts e) g.returnOrigin g'.returnOrigin

namespace Line

variable {κ κ' : Correspondence} {e : Engine}

theorem Corresponds.mono (hκ : κ.Le κ') {l l' : Line} (h : l.Corresponds κ e l') :
    l.Corresponds κ' e l' := by
  cases h with
  | declare h sort => exact .declare (h.mono hκ) sort
  | assert h => exact .assert (h.mono hκ)

/-- A declaration stands in lines exactly if the corresponding one stands in corresponding lines. -/
theorem declare_mem_iff (hκ : κ.OneToOne) (he : e.Distinct) {ls ls' : List Line}
    (hls : Forall₂ (Corresponds κ e) ls ls') {x y : String} (h : κ.Constants e x y) (sort : Sexp) :
    .declare x sort ∈ ls ↔ .declare y sort ∈ ls' := by
  induction hls with
  | nil => simp
  | cons hl _ ih =>
      rw [List.mem_cons, List.mem_cons, ih]
      refine or_congr ?_ Iff.rfl
      cases hl with
      | declare h' sort' => simp [h.eq_iff hκ he h']
      | assert h' => simp

end Line

/-! ## contradictions -/

/-- Terms that contradict each other are not both equations. -/
theorem Guards.Excludes.exists_conflict {as bs : List Sexp} (h : Guards.Excludes as bs) :
    ∃ (i : Nat) (a b : Sexp), as[i]? = some a ∧ bs[i]? = some b ∧ a ≠ b ∧
      ¬(a.head? = some "=" ∧ b.head? = some "=") := by
  induction h with
  | @contrary front a b h as bs =>
      refine ⟨front.length, a, b, by simp, by simp, h.ne, fun hheads => ?_⟩
      obtain rfl | rfl := h
      · simp [Sexp.not, Sexp.app, Sexp.head?] at hheads
      · simp [Sexp.not, Sexp.app, Sexp.head?] at hheads
  | tooLow front zero index length as bs =>
      refine ⟨front.length, .inBounds zero index length, .app "<" [index, zero], by simp, by simp,
        ?_, ?_⟩
      all_goals simp [Sexp.inBounds, Sexp.and, Sexp.app, Sexp.head?]
  | tooHigh front zero index length as bs =>
      refine ⟨front.length, .inBounds zero index length, (Sexp.app "<" [index, zero]).not, by simp,
        by simp, ?_, ?_⟩
      all_goals simp [Sexp.inBounds, Sexp.and, Sexp.not, Sexp.app, Sexp.head?]
  | symm _ ih =>
      obtain ⟨i, a, b, ha, hb, hne, hheads⟩ := ih
      exact ⟨i, b, a, hb, ha, hne.symm, fun h => hheads h.symm⟩

end Pathwise
