import Mathlib.Logic.Relation
import Pathwise.Coverage

/-!
# Pathwise.Proofs.History

Contexts by their history. `Context.Step` is one operation on a context, and a
context is `Used` if some sequence of operations leads to it from the empty one:
these are all contexts a caller can have. Two views of what operations do:

* `Context.Sound`: whatever is stored is right. Stored paths of a form are its
  paths, and the site of a call is a site of its callee.
* `Context.Le`: nothing is renumbered. A site, a pointer and the record of a flow
  stay what they are, as long as no flows are released.
-/

namespace Pathwise

/-! ## equal forms -/

namespace Form

variable {f g : Form}

/-- When forms are the same. -/
theorem same_iff : f.same g = true ↔ f.method = g.method ∧ f.parameters = g.parameters ∧
    f.isStandIn = g.isStandIn ∧ (∀ x ∈ f.locals, x ∈ g.locals) ∧ (∀ x ∈ g.locals, x ∈ f.locals) ∧
    f.blocks.length = g.blocks.length ∧ (∀ b ∈ f.blocks, g.block? b.id = some b) ∧
    ∀ b ∈ g.blocks, f.block? b.id = some b := by
  simp [same, and_assoc]

theorem block?_of_forall (h : ∀ b ∈ f.blocks, g.block? b.id = some b) {id : BlockId} {b : Block}
    (hb : f.block? id = some b) : g.block? id = some b := by
  have hid : b.id = id := by simpa using List.find?_some hb
  rw [← hid]
  exact h b (List.mem_of_find?_eq_some hb)

/-- Equal forms have the same blocks. -/
theorem block?_eq_of_same (h : f.same g = true) (id : BlockId) : f.block? id = g.block? id := by
  obtain ⟨-, -, -, -, -, -, hfg, hgf⟩ := same_iff.1 h
  cases hf : f.block? id with
  | some b => exact (block?_of_forall hfg hf).symm
  | none =>
      cases hg : g.block? id with
      | none => rfl
      | some b =>
          rw [block?_of_forall hgf hg] at hf
          contradiction

/-- Paths depend on the method and on which blocks there are, not on their order. -/
theorem walk_congr (hmethod : f.method = g.method) (hblock : ∀ id, f.block? id = g.block? id)
    (limit fuel : Nat) (id : BlockId) (steps : List PathStep) (onPath : List BlockIndex)
    (paths : Array Skeleton) :
    f.walk limit fuel id steps onPath paths = g.walk limit fuel id steps onPath paths := by
  induction fuel generalizing id steps onPath paths with
  | zero => rfl
  | succ fuel ih =>
      unfold walk
      rw [hblock id, hmethod]
      cases g.block? id with
      | none => rfl
      | some b =>
          have hfinish : f.finish limit = g.finish limit := by
            funext paths steps exit
            rw [finish, finish, hmethod]
          simp only [ih, hfinish]

/-- **Equal forms have the same paths**, or fail in the same way. -/
theorem paths_eq_of_same (h : f.same g = true) (limit : Nat) : f.paths limit = g.paths limit := by
  obtain ⟨hmethod, -, -, -, -, hlength, -, -⟩ := same_iff.1 h
  rw [paths, paths, hlength, walk_congr hmethod (block?_eq_of_same h)]

end Form

namespace Context

open Relation (ReflTransGen)

variable {c d : Context}

/-- One operation on a context. -/
inductive Step : Context → Context → Prop where
  | rootSite (c : Context) (m : MethodRef) : Step c (c.rootSite m).2
  | callSite (c : Context) (parent : Site) (offset : Nat) (callee : MethodRef) :
      Step c (c.callSite parent offset callee).2
  | pointer (c : Context) (site : Site) (offset : Nat) (type : TypeRef) :
      Step c (c.pointer site offset type).2
  | flow (c : Context) (key : FlowKey) : Step c (c.flow key).2
  | release (c : Context) (root : Site) : Step c (c.release root)
  | paths (c : Context) (f : Form) (limit : Nat) : Step c (c.paths f limit).2

/-- A context that some sequence of operations leads to. -/
def Used (c : Context) : Prop := ReflTransGen Step empty c

theorem Used.steps (hc : c.Used) (h : ReflTransGen Step c d) : d.Used :=
  hc.trans h

/-! ## what an operation does -/

/-- A site is known or new. -/
theorem callSite_cases (c : Context) (parent : Site) (offset : Nat) (callee : MethodRef) :
    (∃ s, c.sites.find? ⟨parent, offset, callee⟩ = some s ∧
      c.callSite parent offset callee = (s, c)) ∨
    c.sites.find? ⟨parent, offset, callee⟩ = none ∧ ∃ order s,
      s = { method := callee, sequence := parent.sequence, callOrder := order } ∧
      c.callSite parent offset callee = (s, { c with
        callOrders := c.callOrders.set (callee, parent.sequence) order
        sites := c.sites.set ⟨parent, offset, callee⟩ s }) := by
  cases h : c.sites.find? ⟨parent, offset, callee⟩ with
  | some s => exact Or.inl ⟨s, rfl, by simp only [callSite, h]⟩
  | none => exact Or.inr ⟨rfl, _, _, rfl, by simp only [callSite, h]; rfl⟩

/-- A pointer is known or new. -/
theorem pointer_cases (c : Context) (site : Site) (offset : Nat) (type : TypeRef) :
    (∃ n, c.allocations.find? (site, offset) = some n ∧ c.pointer site offset type = (n, c)) ∨
    c.allocations.find? (site, offset) = none ∧ ∃ n,
      c.pointer site offset type = (n, { c with
        pointers := c.pointers.set type n
        allocations := c.allocations.set (site, offset) n }) := by
  cases h : c.allocations.find? (site, offset) with
  | some n => exact Or.inl ⟨n, rfl, by simp only [pointer, h]⟩
  | none => exact Or.inr ⟨rfl, _, by simp only [pointer, h]; rfl⟩

/-- A flow is known or new. -/
theorem flow_cases (c : Context) (key : FlowKey) :
    (∃ f, c.flows.find? key = some f ∧ c.flow key = (f, c)) ∨
    c.flows.find? key = none ∧ ∃ f,
      c.flow key = (f, { c with
        flows := c.flows.insertNew key f
        nextFlow := c.nextFlow + 1 }) := by
  cases h : c.flows.find? key with
  | some f => exact Or.inl ⟨f, rfl, by simp only [flow, h]⟩
  | none => exact Or.inr ⟨rfl, _, by simp only [flow, h]; rfl⟩

/-- Paths are known or enumerated. -/
theorem paths_cases (c : Context) (f : Form) (limit : Nat) :
    (∃ ps, (∃ known, c.skeletons.find? (f.method, limit) = some (known, ps) ∧
      known.same f = true) ∧ c.paths f limit = (.ok ps, c)) ∨
    (∃ err, f.paths limit = .error err ∧ c.paths f limit = (.error err, c)) ∨
    ∃ ps, f.paths limit = .ok ps ∧
      c.paths f limit = (.ok ps, { c with
        skeletons := c.skeletons.set (f.method, limit) (f, ps) }) := by
  cases hfind : c.skeletons.find? (f.method, limit) with
  | none =>
      cases hps : f.paths limit with
      | error err => exact Or.inr (Or.inl ⟨err, rfl, by simp only [paths, hfind, hps]⟩)
      | ok ps => exact Or.inr (Or.inr ⟨ps, rfl, by simp only [paths, hfind, hps]⟩)
  | some entry =>
      obtain ⟨known, ps⟩ := entry
      by_cases hk : known.same f = true
      · exact Or.inl ⟨ps, ⟨known, rfl, hk⟩, by simp only [paths, hfind, hk, if_true]⟩
      · cases hps : f.paths limit with
        | error err =>
            exact Or.inr (Or.inl ⟨err, rfl, by simp only [paths, hfind, hk, hps]; rfl⟩)
        | ok ps =>
            exact Or.inr (Or.inr ⟨ps, rfl, by simp only [paths, hfind, hk, hps]; rfl⟩)

/-! ## what is stored is right -/

/-- The stored paths are those of their form, and the stored sites those of their calls. -/
structure Sound (c : Context) : Prop where
  skeletons : ∀ m limit f ps, c.skeletons.find? (m, limit) = some (f, ps) → f.paths limit = .ok ps
  sites : ∀ k s, c.sites.find? k = some s → s.method = k.callee ∧ s.sequence = k.parent.sequence

theorem sound_empty : empty.Sound where
  skeletons _ _ _ _ h := by simp [empty] at h
  sites _ _ h := by simp [empty] at h

theorem Sound.of_callSite (h : c.Sound) (parent : Site) (offset : Nat) (callee : MethodRef) :
    (c.callSite parent offset callee).2.Sound := by
  obtain ⟨s, -, heq⟩ | ⟨-, order, s, hs, heq⟩ := c.callSite_cases parent offset callee
  · rw [heq]
    exact h
  · rw [heq]
    refine ⟨h.skeletons, ?_⟩
    intro k t ht
    simp only [Table.find?_set] at ht
    split at ht
    · next hk =>
        obtain rfl := Option.some.inj ht
        subst hk hs
        exact ⟨rfl, rfl⟩
    · exact h.sites k t ht

theorem Sound.of_pointer (h : c.Sound) (site : Site) (offset : Nat) (type : TypeRef) :
    (c.pointer site offset type).2.Sound := by
  obtain ⟨n, -, heq⟩ | ⟨-, n, heq⟩ := c.pointer_cases site offset type
  · rw [heq]
    exact h
  · rw [heq]
    exact ⟨h.skeletons, h.sites⟩

theorem Sound.of_flow (h : c.Sound) (key : FlowKey) : (c.flow key).2.Sound := by
  obtain ⟨f, -, heq⟩ | ⟨-, f, heq⟩ := c.flow_cases key
  · rw [heq]
    exact h
  · rw [heq]
    exact ⟨h.skeletons, h.sites⟩

theorem Sound.of_paths (h : c.Sound) (f : Form) (limit : Nat) :
    (c.paths f limit).2.Sound := by
  obtain ⟨ps, -, heq⟩ | ⟨err, -, heq⟩ | ⟨ps, hps, heq⟩ := c.paths_cases f limit
  · rw [heq]
    exact h
  · rw [heq]
    exact h
  · rw [heq]
    refine ⟨?_, h.sites⟩
    intro m l f' ps' hfind
    simp only [Table.find?_set] at hfind
    split at hfind
    · next hk =>
        obtain ⟨rfl, rfl⟩ := Prod.mk.inj (Option.some.inj hfind)
        obtain ⟨-, rfl⟩ := Prod.mk.inj hk
        exact hps
    · exact h.skeletons m l f' ps' hfind

/-- A step keeps what is recorded sound. -/
theorem Step.sound (h : Step c d) (hc : c.Sound) : d.Sound := by
  cases h with
  | rootSite m => exact ⟨hc.skeletons, hc.sites⟩
  | callSite parent offset callee => exact hc.of_callSite parent offset callee
  | pointer site offset type => exact hc.of_pointer site offset type
  | flow key => exact hc.of_flow key
  | release root => exact ⟨hc.skeletons, hc.sites⟩
  | paths f limit => exact hc.of_paths f limit

theorem Sound.steps (hc : c.Sound) (h : ReflTransGen Step c d) : d.Sound := by
  induction h with
  | refl => exact hc
  | tail _ hstep ih => exact hstep.sound ih

/-- **Used contexts are sound.** -/
theorem Used.sound (h : c.Used) : c.Sound := sound_empty.steps h

/-- In a sound context, looking the paths of a form up gives its paths. -/
theorem Sound.paths_fst (h : c.Sound) (f : Form) (limit : Nat) :
    (c.paths f limit).1 = f.paths limit := by
  obtain ⟨ps, ⟨known, hfind, hsame⟩, heq⟩ | ⟨err, herr, heq⟩ | ⟨ps, hps, heq⟩ :=
    c.paths_cases f limit
  · rw [heq, ← Form.paths_eq_of_same hsame, h.skeletons _ _ _ _ hfind]
  · rw [heq, herr]
  · rw [heq, hps]

/-! ## nothing is renumbered -/

/-- Every site, pointer and flow of the first context is the same in the second. -/
structure Le (c d : Context) : Prop where
  site : ∀ k s, c.sites.find? k = some s → d.sites.find? k = some s
  pointer : ∀ k n, c.allocations.find? k = some n → d.allocations.find? k = some n
  flow : ∀ k f, c.flows.find? k = some f → d.flows.find? k = some f

theorem Le.refl (c : Context) : c.Le c := ⟨fun _ _ h => h, fun _ _ h => h, fun _ _ h => h⟩

theorem Le.trans {c d e : Context} (h₁ : c.Le d) (h₂ : d.Le e) : c.Le e where
  site k s h := h₂.site k s (h₁.site k s h)
  pointer k n h := h₂.pointer k n (h₁.pointer k n h)
  flow k f h := h₂.flow k f (h₁.flow k f h)

theorem le_callSite (c : Context) (parent : Site) (offset : Nat) (callee : MethodRef) :
    c.Le (c.callSite parent offset callee).2 := by
  obtain ⟨s, -, heq⟩ | ⟨hnone, order, s, -, heq⟩ := c.callSite_cases parent offset callee
  · rw [heq]
    exact Le.refl c
  · rw [heq]
    refine ⟨?_, fun _ _ h => h, fun _ _ h => h⟩
    intro k t ht
    simp only [Table.find?_set]
    split
    · next hk =>
        subst hk
        rw [hnone] at ht
        contradiction
    · exact ht

theorem le_pointer (c : Context) (site : Site) (offset : Nat) (type : TypeRef) :
    c.Le (c.pointer site offset type).2 := by
  obtain ⟨n, -, heq⟩ | ⟨hnone, n, heq⟩ := c.pointer_cases site offset type
  · rw [heq]
    exact Le.refl c
  · rw [heq]
    refine ⟨fun _ _ h => h, ?_, fun _ _ h => h⟩
    intro k t ht
    simp only [Table.find?_set]
    split
    · next hk =>
        subst hk
        rw [hnone] at ht
        contradiction
    · exact ht

theorem le_flow (c : Context) (key : FlowKey) : c.Le (c.flow key).2 := by
  obtain ⟨f, -, heq⟩ | ⟨hnone, f, heq⟩ := c.flow_cases key
  · rw [heq]
    exact Le.refl c
  · rw [heq]
    refine ⟨fun _ _ h => h, fun _ _ h => h, ?_⟩
    intro k t ht
    simp only [Table.find?_insertNew]
    split
    · next hk =>
        subst hk
        rw [hnone] at ht
        contradiction
    · exact ht

theorem le_paths (c : Context) (f : Form) (limit : Nat) : c.Le (c.paths f limit).2 := by
  obtain ⟨ps, -, heq⟩ | ⟨err, -, heq⟩ | ⟨ps, -, heq⟩ := c.paths_cases f limit
  · rw [heq]
    exact Le.refl c
  · rw [heq]
    exact Le.refl c
  · rw [heq]
    exact ⟨fun _ _ h => h, fun _ _ h => h, fun _ _ h => h⟩

/-- An operation stores what it answers. -/
theorem find?_callSite (c : Context) (parent : Site) (offset : Nat) (callee : MethodRef) :
    (c.callSite parent offset callee).2.sites.find? ⟨parent, offset, callee⟩ =
      some (c.callSite parent offset callee).1 := by
  obtain ⟨s, hs, heq⟩ | ⟨-, order, s, -, heq⟩ := c.callSite_cases parent offset callee
  · rw [heq, hs]
  · rw [heq]
    simp [Table.find?_set]

theorem find?_pointer (c : Context) (site : Site) (offset : Nat) (type : TypeRef) :
    (c.pointer site offset type).2.allocations.find? (site, offset) =
      some (c.pointer site offset type).1 := by
  obtain ⟨n, hn, heq⟩ | ⟨-, n, heq⟩ := c.pointer_cases site offset type
  · rw [heq, hn]
  · rw [heq]
    simp [Table.find?_set]

theorem find?_flow (c : Context) (key : FlowKey) :
    (c.flow key).2.flows.find? key = some (c.flow key).1 := by
  obtain ⟨f, hf, heq⟩ | ⟨hnone, f, heq⟩ := c.flow_cases key
  · rw [heq, hf]
  · rw [heq]
    simp [Table.find?_insertNew, hnone]

/-! An operation that is done again, in a context that keeps its answer, gives that answer and
stores nothing. Only the paths of a form may have to be enumerated again. -/

/-- Known sites are given again. -/
theorem callSite_again {parent : Site} {offset : Nat} {callee : MethodRef}
    (h : (c.callSite parent offset callee).2.Le d) :
    d.callSite parent offset callee = ((c.callSite parent offset callee).1, d) := by
  have hstored := h.site _ _ (c.find?_callSite parent offset callee)
  obtain ⟨s, hs, heq⟩ | ⟨hnone, -⟩ := d.callSite_cases parent offset callee
  · rw [heq, Option.some.inj (hs.symm.trans hstored)]
  · exact absurd (hnone.symm.trans hstored) (by simp)

/-- Known pointers are given again. -/
theorem pointer_again {site : Site} {offset : Nat} {type : TypeRef}
    (h : (c.pointer site offset type).2.Le d) :
    d.pointer site offset type = ((c.pointer site offset type).1, d) := by
  have hstored := h.pointer _ _ (c.find?_pointer site offset type)
  obtain ⟨n, hn, heq⟩ | ⟨hnone, -⟩ := d.pointer_cases site offset type
  · rw [heq, Option.some.inj (hn.symm.trans hstored)]
  · exact absurd (hnone.symm.trans hstored) (by simp)

/-- Known flows are given again. -/
theorem flow_again {key : FlowKey} (h : (c.flow key).2.Le d) :
    d.flow key = ((c.flow key).1, d) := by
  have hstored := h.flow _ _ (c.find?_flow key)
  obtain ⟨f, hf, heq⟩ | ⟨hnone, -⟩ := d.flow_cases key
  · rw [heq, Option.some.inj (hf.symm.trans hstored)]
  · exact absurd (hnone.symm.trans hstored) (by simp)

theorem paths_snd (c : Context) (f : Form) (limit : Nat) :
    ∃ skeletons, (c.paths f limit).2 = { c with skeletons } := by
  obtain ⟨ps, -, heq⟩ | ⟨err, -, heq⟩ | ⟨ps, -, heq⟩ := c.paths_cases f limit
  all_goals exact ⟨_, congrArg Prod.snd heq⟩

/-- Paths are the same again. -/
theorem Sound.paths_again (hc : c.Sound) (hd : d.Sound) (f : Form) (limit : Nat) :
    ∃ skeletons, d.paths f limit = ((c.paths f limit).1, { d with skeletons }) := by
  obtain ⟨skeletons, hsnd⟩ := d.paths_snd f limit
  have hfst : (d.paths f limit).1 = (c.paths f limit).1 :=
    (hd.paths_fst f limit).trans (hc.paths_fst f limit).symm
  exact ⟨skeletons, Prod.ext hfst hsnd⟩

end Context

end Pathwise
