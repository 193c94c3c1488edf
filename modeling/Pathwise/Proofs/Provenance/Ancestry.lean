import Mathlib.Data.Finset.Card
import Mathlib.Data.List.Chain
import Mathlib.Logic.Relation
import Pathwise.Proofs.Renumbering.Origin

/-!
# Pathwise.Proofs.Provenance.Ancestry

Following flows backwards ends, whatever was recorded. A `Recording` says how flows
come together, and a `Trail` is the loop that follows them, with nothing that bounds
its turns. The loop stops at a flow that it has followed before. As every flow stands
under its own target, this is to come back to a target, so that the targets along a
trail are distinct (`Trail.Sound.turn`) and there are at most as many turns as
recorded targets.

The ancestry of a constant is therefore a chain that leaves nothing out
(`Recording.lineage_ancestry`).
-/

namespace Pathwise

open Relation (ReflTransGen TransGen)

/-! ## recordings -/

/-- How flows come together: they are recorded one at a time, and those of a later path are merged.
A flow is given by its number. -/
inductive Recording where
  | empty
  | record (earlier : Recording) (id : Nat)
  | merge (earlier later : Recording)

namespace Recording

/-- The flows that come together. A number stands for one flow, and `keys` says for which. -/
def flows (keys : Nat → FlowKey) : Recording → Flows
  | .empty => .empty
  | .record earlier id => (earlier.flows keys).record ⟨id, keys id⟩
  | .merge earlier later => (earlier.flows keys).merge (later.flows keys)

/-- The flow that stands under a constant. A recorded flow replaces what stood under its target, and
a merged one what stood where it stands. -/
def latest? (keys : Nat → FlowKey) : Recording → String → Option Flow
  | .empty, _ => none
  | .record earlier id, x =>
    if (keys id).target = x then some ⟨id, keys id⟩ else earlier.latest? keys x
  | .merge earlier later, x => (later.latest? keys x).or (earlier.latest? keys x)

/-- The constants that a flow stands under. -/
def targets (keys : Nat → FlowKey) : Recording → Finset String
  | .empty => ∅
  | .record earlier id => insert (keys id).target (earlier.targets keys)
  | .merge earlier later => earlier.targets keys ∪ later.targets keys

variable (keys : Nat → FlowKey) (r : Recording)

theorem latest?_flows : (r.flows keys).latest? = r.latest? keys := by
  funext x
  induction r with
  | empty => rfl
  | record earlier id ih =>
      by_cases h : (keys id).target = x
      · simp [flows, Flows.latest?, Flows.record, latest?, Flow.target, h]
      · simpa [flows, Flows.latest?, Flows.record, latest?, Flow.target, h] using ih
  | merge earlier later ihearlier ihlater =>
      rw [latest?, ← ihearlier, ← ihlater]
      exact List.find?_append

theorem mem_targets_iff {x : String} :
    x ∈ r.targets keys ↔ ((r.flows keys).latest? x).isSome := by
  rw [latest?_flows]
  induction r with
  | empty => simp [targets, latest?]
  | record earlier id ih =>
      rw [targets, latest?, Finset.mem_insert, ih]
      by_cases h : (keys id).target = x
      · simp [h]
      · simp [h, Ne.symm h]
  | merge earlier later ihearlier ihlater =>
      rw [targets, latest?, Finset.mem_union, ihearlier, ihlater, Option.isSome_or, Bool.or_eq_true,
        or_comm]

theorem card_targets_le : (r.targets keys).card ≤ (r.flows keys).recorded.length := by
  induction r with
  | empty => exact Nat.le_refl 0
  | record earlier id ih =>
      exact (Finset.card_insert_le _ _).trans (Nat.succ_le_succ ih)
  | merge earlier later ihearlier ihlater =>
      have hunion := Finset.card_union_le (earlier.targets keys) (later.targets keys)
      simp only [flows, Flows.merge, targets, List.length_append]
      omega

theorem key_of_mem_flows : ∀ f ∈ (r.flows keys).recorded, f.key = keys f.id := by
  induction r with
  | empty => exact nofun
  | record earlier id ih => exact List.forall_mem_cons.2 ⟨rfl, ih⟩
  | merge earlier later ihearlier ihlater =>
      exact fun f hf => (List.mem_append.1 hf).elim (ihlater f) (ihearlier f)

theorem numbered_flows : (r.flows keys).Numbered := by
  intro f hf g hg hid
  have hkey : f.key = g.key := by
    rw [key_of_mem_flows keys r f hf, key_of_mem_flows keys r g hg, hid]
  exact congrArg₂ Flow.mk hid hkey

end Recording

namespace Flows

/-! ## trails -/

/-- One flow leads back from its target to its source. -/
def LeadsBack (latest? : String → Option Flow) (x y : String) : Prop :=
  ∃ f, latest? x = some f ∧ f.source = y

/-- No constant is its own ancestor. -/
def Acyclic (latest? : String → Option Flow) : Prop := ∀ x, ¬TransGen (LeadsBack latest?) x x

/-- There is no cycle if every flow comes from a constant of lower rank. -/
theorem acyclic_of_rank {latest? : String → Option Flow} (rank : String → Nat)
    (h : ∀ x f, latest? x = some f → rank f.source < rank x) : Acyclic latest? := by
  intro x hcycle
  have hlower : ∀ y, TransGen (LeadsBack latest?) x y → rank y < rank x := by
    intro y hy
    induction hy with
    | single hstep =>
        obtain ⟨f, hf, rfl⟩ := hstep
        exact h x f hf
    | tail _ hstep ih =>
        obtain ⟨f, hf, rfl⟩ := hstep
        exact (h _ f hf).trans ih
  exact Nat.lt_irrefl _ (hlower x hcycle)

/-- Flows that lead back from a constant, one after the other. -/
structure Lineage (latest? : String → Option Flow) (symbol : String) (chain : List Flow) :
    Prop where
  latest : ∀ f ∈ chain, latest? f.target = some f
  distinct : (chain.map Flow.target).Nodup
  first : ∀ f, chain.head? = some f → f.target = symbol
  linked : chain.IsChain fun f g => g.target = f.source

/-- Flows with distinct targets are no more than the targets that there are. -/
theorem Lineage.length_le_card {latest? : String → Option Flow} {symbol : String}
    {chain : List Flow} (h : Lineage latest? symbol chain) {targets : Finset String}
    (htargets : ∀ x, (latest? x).isSome → x ∈ targets) : chain.length ≤ targets.card := by
  rw [← List.length_map Flow.target, ← List.toFinset_card_of_nodup h.distinct]
  refine Finset.card_le_card fun x hx => ?_
  obtain ⟨f, hf, rfl⟩ := List.mem_map.1 (List.mem_toFinset.1 hx)
  exact htargets _ (by simp [h.latest f hf])

/-- Where the loop that follows flows stands. -/
structure Trail where
  /-- The flows that were followed, in the order in which they were. -/
  followed : List Flow
  current : String

namespace Trail

/-- A trail before its first flow. -/
def start (symbol : String) : Trail := ⟨[], symbol⟩

/-- One turn of the loop. There is none if no flow leads into the current constant, or if it was
followed before. -/
def turn (t : Flows) (w : Trail) : Option Trail :=
  match t.latest? w.current with
  | none => none
  | some f =>
    if w.followed.any (·.id = f.id) then none else some ⟨w.followed ++ [f], f.source⟩

/-- Turn after turn, one trail becomes another that has no further turn. -/
def Ends (t : Flows) (w w' : Trail) : Prop :=
  ReflTransGen (fun v v' => v.turn t = some v') w w' ∧ w'.turn t = none

/-- A trail from a constant. -/
structure Sound (t : Flows) (symbol : String) (w : Trail) : Prop
    extends Lineage t.latest? symbol w.followed where
  current : w.current = (w.followed.getLast?.map Flow.source).getD symbol
  leads : ∀ f ∈ w.followed, TransGen (LeadsBack t.latest?) f.target w.current

variable {t : Flows} {symbol : String} {w w' : Trail}

theorem turn_of_none (h : t.latest? w.current = none) : w.turn t = none := by
  simp [turn, h]

theorem turn_of_some {f : Flow} (h : t.latest? w.current = some f) :
    w.turn t =
      if w.followed.any (·.id = f.id) then none else some ⟨w.followed ++ [f], f.source⟩ := by
  simp only [turn, h]

/-- **What a turn does.** -/
theorem turn_eq_some_iff : w.turn t = some w' ↔
    ∃ f, t.latest? w.current = some f ∧ ¬w.followed.any (·.id = f.id) ∧
      ⟨w.followed ++ [f], f.source⟩ = w' := by
  cases hf : t.latest? w.current with
  | none => simp [turn_of_none hf]
  | some f => simp [turn_of_some hf]

theorem sound_start (t : Flows) (symbol : String) : Sound t symbol (start symbol) where
  latest := nofun
  distinct := List.nodup_nil
  first := nofun
  linked := .nil
  current := rfl
  leads := nofun

section

variable (ht : t.Numbered)
include ht

/-- **One turn** keeps a trail sound. It follows a flow with a new target, as the flow that was
followed from an old one is the latest into it. -/
theorem Sound.turn (h : Sound t symbol w) (hturn : w.turn t = some w') : Sound t symbol w' := by
  obtain ⟨f, hf, hnew, rfl⟩ := turn_eq_some_iff.1 hturn
  have htarget : f.target = w.current := (of_latest? hf).2
  have hfresh : w.current ∉ w.followed.map Flow.target := by
    rwa [← followed_iff ht h.latest hf]
  have hleads : LeadsBack t.latest? w.current f.source := ⟨f, hf, rfl⟩
  exact
    { latest := by
        rw [List.forall_mem_append, List.forall_mem_singleton, htarget]
        exact ⟨h.latest, hf⟩
      distinct := by
        rw [List.map_append, List.map_singleton, htarget]
        exact List.nodup_append_comm.1 (List.nodup_cons.2 ⟨hfresh, h.distinct⟩)
      first := fun g hg => by
        -- Only the first turn starts at `symbol` itself; later ones keep the first flow.
        cases hfollowed : w.followed with
        | nil =>
            rw [hfollowed] at hg
            rw [← Option.some.inj hg, htarget, h.current, hfollowed]
            rfl
        | cons a l =>
            rw [hfollowed] at hg
            exact h.first g (by rw [hfollowed]; exact hg)
      linked := by
        refine List.isChain_append.2 ⟨h.linked, .singleton f, fun a ha b hb => ?_⟩
        rw [← Option.some.inj hb, htarget, h.current, Option.mem_def.1 ha]
        rfl
      current := by simp
      leads := by
        rw [List.forall_mem_append, List.forall_mem_singleton, htarget]
        exact ⟨fun g hg => (h.leads g hg).tail hleads, .single hleads⟩ }

theorem Sound.turns (h : Sound t symbol w)
    (hturns : ReflTransGen (fun v v' => v.turn t = some v') w w') : Sound t symbol w' := by
  induction hturns with
  | refl => exact h
  | tail _ hturn ih => exact ih.turn ht hturn

/-- **Where a trail stops**: where no flow leads on, or back at a target of its own. -/
theorem Sound.turn_eq_none_iff (h : Sound t symbol w) : w.turn t = none ↔
    t.latest? w.current = none ∨ w.current ∈ w.followed.map Flow.target := by
  cases hf : t.latest? w.current with
  | none => simp [turn_of_none hf]
  | some f => simp [turn_of_some hf, ← followed_iff ht h.latest hf]

/-! ### stopped trails -/

variable (h : Sound t symbol w) (hstop : w.turn t = none)
include h hstop

theorem Sound.followed_eq_nil_iff : w.followed = [] ↔ t.latest? symbol = none := by
  constructor
  · intro hnil
    have hcurrent : w.current = symbol := by
      rw [h.current, hnil]
      rfl
    obtain hnone | hmem := (h.turn_eq_none_iff ht).1 hstop
    · rwa [hcurrent] at hnone
    · rw [hnil] at hmem
      contradiction
  · intro hnone
    cases hfollowed : w.followed with
    | nil => rfl
    | cons f l =>
        have hf := h.latest f (by simp [hfollowed])
        rw [h.first f (by simp [hfollowed]), hnone] at hf
        contradiction

theorem Sound.last_stops {f : Flow} (hlast : w.followed.getLast? = some f) :
    t.latest? f.source = none ∨ f.source ∈ w.followed.map Flow.target := by
  have hcurrent : w.current = f.source := by
    rw [h.current, hlast]
    rfl
  rw [← hcurrent]
  exact (h.turn_eq_none_iff ht).1 hstop

/-- Coming back to a target closes a cycle. -/
theorem Sound.latest?_current (hacyclic : Acyclic t.latest?) : t.latest? w.current = none := by
  refine ((h.turn_eq_none_iff ht).1 hstop).resolve_right fun hmem => ?_
  obtain ⟨f, hf, htarget⟩ := List.mem_map.1 hmem
  have hleads := h.leads f hf
  rw [htarget] at hleads
  exact hacyclic _ hleads

end

/-! ## ancestry -/

variable {targets : Finset String} (ht : t.Numbered)
  (htargets : ∀ x, (t.latest? x).isSome → x ∈ targets)
include ht htargets

/-- The trace from where a trail stands is the rest of the trail, as there is fuel for every target
that is left. -/
theorem Sound.ends_trace (h : Sound t symbol w) (fuel : Nat)
    (hfuel : targets.card < w.followed.length + fuel) :
    ∃ current, Ends t w ⟨w.followed ++ t.trace fuel w.current w.followed.reverse, current⟩ := by
  induction fuel generalizing w with
  -- A sound trail has no more flows than there are targets, so the fuel never runs out.
  | zero => exact absurd hfuel (Nat.not_lt.2 (h.length_le_card htargets))
  | succ fuel ih =>
      unfold trace
      cases hf : t.latest? w.current with
      | none =>
          rw [List.append_nil]
          exact ⟨w.current, .refl, turn_of_none hf⟩
      | some f =>
          have hturn := turn_of_some hf
          simp only [List.any_reverse]
          split at hturn
          · next hany =>
              rw [if_pos hany, List.append_nil]
              exact ⟨w.current, .refl, hturn⟩
          · next hany =>
              rw [if_neg hany]
              obtain ⟨current, hturns, hlast⟩ := ih (h.turn ht hturn) (by simp; omega)
              rw [List.reverse_append, List.append_assoc] at hturns hlast
              exact ⟨current, hturns.head hturn, hlast⟩

/-- The loop from a constant ends with its ancestry, at its origin. -/
theorem ends_ancestry (hcard : targets.card ≤ t.recorded.length) (symbol : String) :
    Ends t (start symbol) ⟨t.ancestry symbol, t.origin symbol⟩ := by
  have hstart := sound_start t symbol
  obtain ⟨current, hends⟩ := hstart.ends_trace ht htargets (t.recorded.length + 1)
    (by simp [start]; omega)
  have horigin : current = t.origin symbol := by
    rw [origin_eq]
    exact (hstart.turns ht hends.1).current
  rw [← horigin]
  exact hends

end Trail

end Flows

namespace Recording

open Flows

/-- **Ancestry ends and is a chain.** Following flows backwards from a constant, with nothing that
bounds the turns, ends with its ancestry at its origin. -/
theorem lineage_ancestry (keys : Nat → FlowKey) (r : Recording) (symbol : String) :
    Trail.Ends (r.flows keys) (.start symbol)
        ⟨(r.flows keys).ancestry symbol, (r.flows keys).origin symbol⟩ ∧
      Lineage (r.latest? keys) symbol ((r.flows keys).ancestry symbol) ∧
      ((r.flows keys).ancestry symbol).length ≤ (r.targets keys).card ∧
      ((r.flows keys).ancestry symbol = [] ↔ r.latest? keys symbol = none) ∧
      (∀ f, ((r.flows keys).ancestry symbol).getLast? = some f →
        r.latest? keys f.source = none ∨
          f.source ∈ ((r.flows keys).ancestry symbol).map Flow.target) ∧
      (Acyclic (r.latest? keys) → r.latest? keys ((r.flows keys).origin symbol) = none) := by
  have ht := numbered_flows keys r
  have htargets : ∀ x, ((r.flows keys).latest? x).isSome → x ∈ r.targets keys :=
    fun x => (mem_targets_iff keys r).2
  have hends := Trail.ends_ancestry ht htargets (card_targets_le keys r) symbol
  have hsound := (Trail.sound_start (r.flows keys) symbol).turns ht hends.1
  rw [← latest?_flows]
  refine ⟨hends, hsound.toLineage, hsound.length_le_card htargets, ?_, ?_, ?_⟩
  · exact hsound.followed_eq_nil_iff ht hends.2
  · exact fun f hf => hsound.last_stops ht hends.2 hf
  · exact fun hacyclic => hsound.latest?_current ht hends.2 hacyclic

end Recording

namespace Sample.Passing

open Flows

/-- A flow that only matters for its ends. -/
def key (source target : String) : FlowKey := { (default : FlowKey) with source, target }

/-- Flows through a call, and one that leads back. -/
def keys : Nat → FlowKey
  | 0 => key "a" "callee!p0"
  | 1 => key "callee!p0" "callee!s0"
  | 2 => key "callee!s0" "b"
  | _ => key "b" "a"

/-- A value goes through a call: into the parameter, to a slot of the callee, and back. -/
def call : Recording := ((Recording.empty.record 0).merge (.record .empty 1)).record 2

/-- Along the call the ranks go up. -/
def rank : String → Nat
  | "b" => 3
  | "callee!s0" => 2
  | "callee!p0" => 1
  | _ => 0

theorem acyclic_call : Acyclic (call.latest? keys) := by
  have hlower : ∀ f ∈ (call.flows keys).recorded, rank f.source < rank f.target := by decide
  refine acyclic_of_rank rank fun x f hf => ?_
  rw [← Recording.latest?_flows] at hf
  obtain ⟨hmem, rfl⟩ := of_latest? hf
  exact hlower f hmem

theorem lineage_call : Acyclic (call.latest? keys) ∧
    Lineage (call.latest? keys) "b" ((call.flows keys).ancestry "b") ∧
    ((call.flows keys).ancestry "b").length = 3 ∧ (call.flows keys).origin "b" = "a" ∧
    call.latest? keys "a" = none := by
  obtain ⟨-, hlineage, -, -, -, horigin⟩ := Recording.lineage_ancestry keys call "b"
  exact ⟨acyclic_call, hlineage, by decide, by decide, horigin acyclic_call⟩

-- With a flow from `b` to `a` there is a cycle, and the value of `b` comes from `b`.
example : ((call.record 3).flows keys).origin "b" = "b" := by decide

end Sample.Passing

end Pathwise
