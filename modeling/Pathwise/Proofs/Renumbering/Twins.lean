import Pathwise.Proofs.Renumbering.Correspondence
import Pathwise.Proofs.Runs

/-!
# Pathwise.Proofs.Renumbering.Twins

Two runs in step. `Twins` holds the contexts of two runs of one engine and the
correspondence between the sites and pointers that they have been given so far:
what one context stores about a site, the other stores about the corresponding
one. Each operation of a run can be done on both sides at once and extends the
correspondence, where it gives out new numbers, by one pair.
-/

namespace Pathwise

open Relator (BiUnique)

/-- A new pair keeps one-to-one. -/
theorem BiUnique.insert {α β : Type} {R : α → β → Prop} (h : BiUnique R) {a : α} {b : β}
    (ha : ∀ y, ¬R a y) (hb : ∀ x, ¬R x b) : BiUnique fun x y => R x y ∨ x = a ∧ y = b := by
  constructor
  · rintro x x' y (hx | ⟨rfl, rfl⟩) (hx' | ⟨rfl, hy⟩)
    · exact h.1 hx hx'
    · exact absurd (hy ▸ hx) (hb x)
    · exact absurd hx' (hb x')
    · rfl
  · rintro x y y' (hy | ⟨rfl, rfl⟩) (hy' | ⟨hx, rfl⟩)
    · exact h.2 hy hy'
    · exact absurd (hx ▸ hy) (ha y)
    · exact absurd hy' (ha y')
    · rfl

theorem Option.Rel.imp {α β : Type} {R S : α → β → Prop} (h : ∀ a b, R a b → S a b)
    {a : Option α} {b : Option β} (hab : Option.Rel R a b) : Option.Rel S a b := by
  cases hab with
  | none => exact .none
  | some hab => exact .some (h _ _ hab)

/-! ## contexts in use -/

namespace Context

variable {c : Context}

/-- Flows are stored under their keys, each with a number of its own. -/
structure FlowBook (c : Context) : Prop where
  stored : ∀ k f, c.flows.find? k = some f → f.key = k ∧ f.id < c.nextFlow
  injective : ∀ k k' f f', c.flows.find? k = some f → c.flows.find? k' = some f' →
    f.id = f'.id → f = f'

theorem FlowBook.flow (h : c.FlowBook) (key : FlowKey) : (c.flow key).2.FlowBook := by
  cases hfind : c.flows.find? key with
  | some f =>
      have heq : c.flow key = (f, c) := by simp only [Context.flow, hfind]
      rwa [heq]
  | none =>
      have heq : (c.flow key).2 = { c with
          flows := c.flows.insertNew key ⟨c.nextFlow, key⟩
          nextFlow := c.nextFlow + 1 } := by simp only [Context.flow, hfind]
      have hcases : ∀ k f, (c.flow key).2.flows.find? k = some f →
          f = ⟨c.nextFlow, key⟩ ∧ k = key ∨ c.flows.find? k = some f := by
        intro k f hf
        rw [heq] at hf
        simp only [Table.find?_insertNew, hfind, Option.getD_none] at hf
        split at hf
        · next hk => exact Or.inl ⟨(Option.some.inj hf).symm, hk.symm⟩
        · exact Or.inr hf
      have hnext : (c.flow key).2.nextFlow = c.nextFlow + 1 := by rw [heq]
      refine ⟨fun k f hf => ?_, fun k k' f f' hf hf' hid => ?_⟩
      · rw [hnext]
        obtain ⟨rfl, rfl⟩ | hold := hcases k f hf
        · exact ⟨rfl, Nat.lt_succ_self _⟩
        · exact ⟨(h.stored k f hold).1, Nat.lt_succ_of_lt (h.stored k f hold).2⟩
      · obtain ⟨rfl, -⟩ | hold := hcases k f hf <;> obtain ⟨rfl, -⟩ | hold' := hcases k' f' hf'
        · rfl
        · exact absurd hid (Nat.ne_of_gt (h.stored k' f' hold').2)
        · exact absurd hid (Nat.ne_of_lt (h.stored k f hold).2)
        · exact h.injective k k' f f' hold hold' hid

/-- What a run may rely on. -/
structure Lawful (c : Context) : Prop where
  settled : c.Settled
  sound : c.Sound
  flows : c.FlowBook

/-- Invocations keep to the laws. -/
theorem Lawful.callSite (h : c.Lawful) {k : CallKey} (hk : c.Issued k.parent) :
    (c.callSite k.parent k.offset k.callee).2.Lawful where
  settled := h.settled.callSite hk
  sound := h.sound.of_callSite k.parent k.offset k.callee
  flows := by
    cases hfind : c.sites.find? k with
    | some s => rw [callSite_of_some hfind]; exact h.flows
    | none => rw [callSite_of_none hfind]; exact ⟨h.flows.stored, h.flows.injective⟩

/-- Allocations keep to the laws. -/
theorem Lawful.pointer (h : c.Lawful) {site : Site} (hsite : c.Issued site) (offset : Nat)
    (type : TypeRef) : (c.pointer site offset type).2.Lawful where
  settled := h.settled.pointer hsite offset type
  sound := h.sound.of_pointer site offset type
  flows := by
    obtain ⟨n, -, heq⟩ | ⟨-, n, heq⟩ := c.pointer_cases site offset type
    · rw [heq]; exact h.flows
    · rw [heq]; exact ⟨h.flows.stored, h.flows.injective⟩

theorem Lawful.flow (h : c.Lawful) (key : FlowKey) : (c.flow key).2.Lawful where
  settled := by
    obtain ⟨flows, nextFlow, heq⟩ := c.flow_snd key
    rw [heq]
    exact h.settled.of_eq (countsUp_of_eq rfl rfl) rfl rfl
  sound := h.sound.of_flow key
  flows := h.flows.flow key

theorem Lawful.paths (h : c.Lawful) (f : Form) (limit : Nat) : (c.paths f limit).2.Lawful where
  settled := by
    obtain ⟨skeletons, heq⟩ := c.paths_snd f limit
    rw [heq]
    exact h.settled.of_eq (countsUp_of_eq rfl rfl) rfl rfl
  sound := h.sound.of_paths f limit
  flows := by
    obtain ⟨skeletons, heq⟩ := c.paths_snd f limit
    rw [heq]
    exact ⟨h.flows.stored, h.flows.injective⟩

/-- The second context has the numbers of sites and pointers that the first one has. -/
structure Keeps (c d : Context) : Prop where
  lawful : d.Lawful
  le : c.Le d
  countsUp : c.CountsUp d
  sites : d.sites = c.sites
  allocations : d.allocations = c.allocations
  pointers : d.pointers = c.pointers

theorem Lawful.keeps_flow (h : c.Lawful) (key : FlowKey) : c.Keeps (c.flow key).2 := by
  have hlawful := h.flow key
  have hle := c.le_flow key
  obtain ⟨flows, nextFlow, heq⟩ := c.flow_snd key
  rw [heq] at hlawful hle ⊢
  exact ⟨hlawful, hle, countsUp_of_eq rfl rfl, rfl, rfl, rfl⟩

theorem Lawful.keeps_paths (h : c.Lawful) (f : Form) (limit : Nat) :
    c.Keeps (c.paths f limit).2 := by
  have hlawful := h.paths f limit
  have hle := c.le_paths f limit
  obtain ⟨skeletons, heq⟩ := c.paths_snd f limit
  rw [heq] at hlawful hle ⊢
  exact ⟨hlawful, hle, countsUp_of_eq rfl rfl, rfl, rfl, rfl⟩

/-- The second context is the first one after a call that had no site. -/
structure Opens (c : Context) (k : CallKey) (s : Site) (d : Context) : Prop where
  lawful : d.Lawful
  le : c.Le d
  countsUp : c.CountsUp d
  method : s.method = k.callee
  new : ¬ c.Issued s
  issued : d.Issued s
  sites : ∀ k', d.sites.find? k' = if k = k' then some s else c.sites.find? k'
  allocations : d.allocations = c.allocations
  objects : ∀ type, d.objects type = c.objects type

/-- A new invocation opens a site. -/
theorem Lawful.opens (h : c.Lawful) {k : CallKey} (hk : c.Issued k.parent)
    (hnone : c.sites.find? k = none) :
    c.Opens k (c.callSite k.parent k.offset k.callee).1
      (c.callSite k.parent k.offset k.callee).2 := by
  have hlawful := h.callSite hk
  have hle := c.le_callSite k.parent k.offset k.callee
  have hup := c.countsUp_callSite k
  have hnew := not_issued_callSite hnone
  have hissued := c.issued_callSite h.settled k
  rw [callSite_of_none hnone] at *
  exact ⟨hlawful, hle, hup, rfl, hnew, hissued, Table.find?_set _ _ _, rfl, fun _ => rfl⟩

/-- The second context is the first one after a place got its pointer. -/
structure Numbers (c : Context) (place : Site × Nat) (type : TypeRef) (n : Nat) (d : Context) :
    Prop where
  lawful : d.Lawful
  le : c.Le d
  countsUp : c.CountsUp d
  number : n = c.objects type + 1
  sites : d.sites = c.sites
  allocations : ∀ p, d.allocations.find? p = if place = p then some n else c.allocations.find? p
  objects : ∀ t, d.objects t = if type = t then n else c.objects t

/-- A new allocation gets a number. -/
theorem Lawful.numbers (h : c.Lawful) {site : Site} (hsite : c.Issued site) {offset : Nat}
    (type : TypeRef) (hnone : c.allocations.find? (site, offset) = none) :
    c.Numbers (site, offset) type (c.pointer site offset type).1
      (c.pointer site offset type).2 := by
  have hlawful := h.pointer hsite offset type
  have hle := c.le_pointer site offset type
  have hup := c.countsUp_pointer site offset type
  rw [pointer_of_none type hnone] at *
  refine ⟨hlawful, hle, hup, rfl, rfl, Table.find?_set _ _ _, fun t => ?_⟩
  simp only [objects, Table.find?_set]
  split <;> rfl

end Context

/-! ## two runs -/

/-- Two contexts, and which of their sites and pointers correspond. -/
structure Twins (e : Engine) extends Correspondence where
  left : Context
  right : Context
  oneToOne : toCorrespondence.OneToOne
  lawful : left.Lawful ∧ right.Lawful
  issued : ∀ s t, sites s t → left.Issued s ∧ right.Issued t
  counted : ∀ type i j, pointers type i j → i ≤ left.objects type ∧ j ≤ right.objects type
  /-- A call has corresponding sites in both contexts, or none in either. -/
  calls : ∀ s t, sites s t → ∀ offset callee, Option.Rel sites
    (left.sites.find? ⟨s, offset, callee⟩) (right.sites.find? ⟨t, offset, callee⟩)
  /-- A place has corresponding pointers in both contexts, or none in either. -/
  allocations : ∀ s t, sites s t → ∀ offset, Option.Rel
    (fun i j => ∃ type, e.Allocates s.method offset type ∧ pointers type i j)
    (left.allocations.find? (s, offset)) (right.allocations.find? (t, offset))

namespace Twins

variable {e : Engine} {c d : Context} {offset : Nat}

/-- Later in the two runs: nothing is renumbered. -/
structure Le (w w' : Twins e) : Prop where
  correspondence : w.toCorrespondence.Le w'.toCorrespondence
  left : w.left.Le w'.left
  right : w.right.Le w'.right

theorem Le.refl (w : Twins e) : w.Le w :=
  ⟨⟨fun _ _ h => h, fun _ _ _ h => h⟩, Context.Le.refl _, Context.Le.refl _⟩

theorem Le.trans {u v w : Twins e} (h : u.Le v) (h' : v.Le w) : u.Le w where
  correspondence := ⟨fun s t hs => h'.correspondence.sites s t (h.correspondence.sites s t hs),
    fun type i j hp => h'.correspondence.pointers type i j (h.correspondence.pointers type i j hp)⟩
  left := h.left.trans h'.left
  right := h.right.trans h'.right

variable (w : Twins e) {s t : Site}

/-- A new call on both sides. -/
theorem exists_opens (hs : w.sites s t) {callee : MethodRef} {s₀ t₀ : Site}
    (hc : w.left.Opens ⟨s, offset, callee⟩ s₀ c) (hd : w.right.Opens ⟨t, offset, callee⟩ t₀ d) :
    ∃ w' : Twins e, w.Le w' ∧ w'.left = c ∧ w'.right = d ∧ w'.sites s₀ t₀ := by
  have hunique : ∀ a b, w.sites a b → (s = a ↔ t = b) := fun a b h =>
    Relator.rel_eq w.oneToOne.sites hs h
  have hnew : ∀ b, ¬ w.sites s₀ b := fun b h => hc.new (w.issued _ b h).1
  have hnew' : ∀ a, ¬ w.sites a t₀ := fun a h => hd.new (w.issued a _ h).2
  refine ⟨{
    sites := fun a b => w.sites a b ∨ a = s₀ ∧ b = t₀
    pointers := w.pointers
    left := c
    right := d
    oneToOne := ⟨?_, BiUnique.insert w.oneToOne.sites hnew hnew', w.oneToOne.pointers⟩
    lawful := ⟨hc.lawful, hd.lawful⟩
    issued := ?_
    counted := fun type i j h => by rw [hc.objects, hd.objects]; exact w.counted type i j h
    calls := ?_
    allocations := ?_ },
    ⟨⟨fun a b h => Or.inl h, fun _ _ _ h => h⟩, hc.le, hd.le⟩, rfl, rfl, Or.inr ⟨rfl, rfl⟩⟩
  · rintro a b (h | ⟨rfl, rfl⟩)
    · exact w.oneToOne.method a b h
    · rw [hc.method, hd.method]
  · rintro a b (h | ⟨rfl, rfl⟩)
    · exact ⟨(w.issued a b h).1.mono hc.countsUp, (w.issued a b h).2.mono hd.countsUp⟩
    · exact ⟨hc.issued, hd.issued⟩
  · rintro a b (h | ⟨rfl, rfl⟩) o m
    · have hkey : (⟨s, offset, callee⟩ : CallKey) = ⟨a, o, m⟩ ↔
          (⟨t, offset, callee⟩ : CallKey) = ⟨b, o, m⟩ := by simp [hunique a b h]
      rw [hc.sites, hd.sites]
      by_cases hk : (⟨s, offset, callee⟩ : CallKey) = ⟨a, o, m⟩
      · rw [if_pos hk, if_pos (hkey.1 hk)]
        exact .some (Or.inr ⟨rfl, rfl⟩)
      · rw [if_neg hk, if_neg (mt hkey.2 hk)]
        exact Option.Rel.imp (fun _ _ => Or.inl) (w.calls a b h o m)
    · -- no call of the new sites has been made
      have hk : (⟨s, offset, callee⟩ : CallKey) ≠ ⟨a, o, m⟩ := by
        rintro ⟨rfl, -, -⟩
        exact hnew t hs
      have hk' : (⟨t, offset, callee⟩ : CallKey) ≠ ⟨b, o, m⟩ := by
        rintro ⟨rfl, -, -⟩
        exact hnew' s hs
      rw [hc.sites, hd.sites, if_neg hk, if_neg hk', w.lawful.1.settled.find?_sites hc.new,
        w.lawful.2.settled.find?_sites hd.new]
      exact .none
  · rintro a b (h | ⟨rfl, rfl⟩) o
    · rw [hc.allocations, hd.allocations]
      exact w.allocations a b h o
    · rw [hc.allocations, hd.allocations, w.lawful.1.settled.find?_allocations hc.new,
        w.lawful.2.settled.find?_allocations hd.new]
      exact .none

/-- The same call on both sides. -/
theorem exists_callSite (hs : w.sites s t) (offset : Nat) (callee : MethodRef) :
    ∃ w' : Twins e, w.Le w' ∧ w'.left = (w.left.callSite s offset callee).2 ∧
      w'.right = (w.right.callSite t offset callee).2 ∧
      w'.sites (w.left.callSite s offset callee).1 (w.right.callSite t offset callee).1 := by
  have hrel := w.calls s t hs offset callee
  cases hfind : w.left.sites.find? ⟨s, offset, callee⟩ with
  | none =>
      cases hfind' : w.right.sites.find? ⟨t, offset, callee⟩ with
      | none =>
          obtain ⟨hs', ht'⟩ := w.issued s t hs
          exact w.exists_opens hs (w.lawful.1.opens hs' hfind) (w.lawful.2.opens ht' hfind')
      | some t₀ =>
          rw [hfind, hfind'] at hrel
          contradiction
  | some s₀ =>
      cases hfind' : w.right.sites.find? ⟨t, offset, callee⟩ with
      | none =>
          rw [hfind, hfind'] at hrel
          contradiction
      | some t₀ =>
          rw [hfind, hfind'] at hrel
          have hl : w.left.callSite s offset callee = (s₀, w.left) := Context.callSite_of_some hfind
          have hr : w.right.callSite t offset callee = (t₀, w.right) :=
            Context.callSite_of_some hfind'
          rw [hl, hr]
          cases hrel with
          | some h => exact ⟨w, .refl w, rfl, rfl, h⟩

/-- A new object on both sides. -/
theorem exists_numbers (hs : w.sites s t) {type : TypeRef}
    (htype : e.Allocates s.method offset type) {m n : Nat}
    (hc : w.left.Numbers (s, offset) type m c) (hd : w.right.Numbers (t, offset) type n d) :
    ∃ w' : Twins e, w.Le w' ∧ w'.left = c ∧ w'.right = d ∧ w'.pointers type m n := by
  have hunique : ∀ a b, w.sites a b → (s = a ↔ t = b) := fun a b h =>
    Relator.rel_eq w.oneToOne.sites hs h
  have hnew : ∀ j, ¬ w.pointers type m j := by
    intro j h
    have hle := (w.counted type m j h).1
    rw [hc.number] at hle
    omega
  have hnew' : ∀ i, ¬ w.pointers type i n := by
    intro i h
    have hle := (w.counted type i n h).2
    rw [hd.number] at hle
    omega
  refine ⟨{
    sites := w.sites
    pointers := fun u i j => w.pointers u i j ∨ u = type ∧ i = m ∧ j = n
    left := c
    right := d
    oneToOne := ⟨w.oneToOne.method, w.oneToOne.sites, ?_⟩
    lawful := ⟨hc.lawful, hd.lawful⟩
    issued := fun a b h =>
      ⟨(w.issued a b h).1.mono hc.countsUp, (w.issued a b h).2.mono hd.countsUp⟩
    counted := ?_
    calls := ?_
    allocations := ?_ },
    ⟨⟨fun _ _ h => h, fun _ _ _ h => Or.inl h⟩, hc.le, hd.le⟩, rfl, rfl, Or.inr ⟨rfl, rfl, rfl⟩⟩
  · intro u
    by_cases hu : u = type
    · subst hu
      simpa using BiUnique.insert (w.oneToOne.pointers u) hnew hnew'
    · simpa [hu] using w.oneToOne.pointers u
  · rintro u i j (h | ⟨rfl, rfl, rfl⟩)
    · obtain ⟨hi, hj⟩ := w.counted u i j h
      rw [hc.objects, hd.objects]
      split
      · next hu =>
          subst hu
          rw [hc.number, hd.number]
          omega
      · exact ⟨hi, hj⟩
    · rw [hc.objects, hd.objects, if_pos rfl, if_pos rfl]
      exact ⟨Nat.le_refl _, Nat.le_refl _⟩
  · rw [hc.sites, hd.sites]
    exact w.calls
  · intro a b h o
    have hplace : (s, offset) = (a, o) ↔ (t, offset) = (b, o) := by simp [hunique a b h]
    rw [hc.allocations, hd.allocations]
    by_cases hp : (s, offset) = (a, o)
    · rw [if_pos hp, if_pos (hplace.1 hp)]
      obtain ⟨rfl, rfl⟩ := Prod.mk.inj hp
      exact .some ⟨type, htype, Or.inr ⟨rfl, rfl, rfl⟩⟩
    · rw [if_neg hp, if_neg (mt hplace.2 hp)]
      refine Option.Rel.imp (fun i j hij => ?_) (w.allocations a b h o)
      obtain ⟨u, hu, hij⟩ := hij
      exact ⟨u, hu, Or.inl hij⟩

/-- The same allocation on both sides. -/
theorem exists_pointer (hs : w.sites s t) {type : TypeRef}
    (htype : e.Allocates s.method offset type) :
    ∃ w' : Twins e, w.Le w' ∧ w'.left = (w.left.pointer s offset type).2 ∧
      w'.right = (w.right.pointer t offset type).2 ∧ ∃ numbered,
        e.Allocates s.method offset numbered ∧
        w'.pointers numbered (w.left.pointer s offset type).1
          (w.right.pointer t offset type).1 := by
  have hrel := w.allocations s t hs offset
  cases hfind : w.left.allocations.find? (s, offset) with
  | none =>
      cases hfind' : w.right.allocations.find? (t, offset) with
      | none =>
          obtain ⟨hs', ht'⟩ := w.issued s t hs
          obtain ⟨w', hle, hl, hr, hp⟩ := w.exists_numbers hs htype
            (w.lawful.1.numbers hs' type hfind) (w.lawful.2.numbers ht' type hfind')
          exact ⟨w', hle, hl, hr, type, htype, hp⟩
      | some j =>
          rw [hfind, hfind'] at hrel
          contradiction
  | some i =>
      cases hfind' : w.right.allocations.find? (t, offset) with
      | none =>
          rw [hfind, hfind'] at hrel
          contradiction
      | some j =>
          rw [hfind, hfind'] at hrel
          rw [Context.pointer_of_some type hfind, Context.pointer_of_some type hfind']
          cases hrel with
          | some h => exact ⟨w, .refl w, rfl, rfl, h⟩

/-- An operation on each side that gives out no numbers of sites and pointers. -/
theorem exists_keeps (hc : w.left.Keeps c) (hd : w.right.Keeps d) :
    ∃ w' : Twins e, w.Le w' ∧ w'.left = c ∧ w'.right = d := by
  refine ⟨{
    toCorrespondence := w.toCorrespondence
    left := c
    right := d
    oneToOne := w.oneToOne
    lawful := ⟨hc.lawful, hd.lawful⟩
    issued := fun a b h =>
      ⟨(w.issued a b h).1.mono hc.countsUp, (w.issued a b h).2.mono hd.countsUp⟩
    counted := ?_
    calls := ?_
    allocations := ?_ }, ⟨⟨fun _ _ h => h, fun _ _ _ h => h⟩, hc.le, hd.le⟩, rfl, rfl⟩
  · unfold Context.objects
    rw [hc.pointers, hd.pointers]
    exact w.counted
  · rw [hc.sites, hd.sites]
    exact w.calls
  · rw [hc.allocations, hd.allocations]
    exact w.allocations

end Twins

end Pathwise
