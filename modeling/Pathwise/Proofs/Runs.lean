import Pathwise.Proofs.Freshness
import Pathwise.Proofs.Limit

/-!
# Pathwise.Proofs.Runs

What whole runs leave in a context, whichever way they end. A run only asks about
sites it was given before, and only records flows of its own root:
`Context.RunStep` is one operation of a run with a root, and every computation
of a run is a sequence of such operations (`Run.stays_render`). From that:

* `Context.Settled`: what is stored belongs to sites that were given out, so
  a new site finds nothing stored about it;
* after any runs of any engines no flow is left (`Context.flowCount_after`).
-/

namespace Pathwise

open Relation (ReflTransGen)

namespace Context

variable {c d : Context} {root s : Site} {k : CallKey}

/-! ## sites that were given out -/

/-- A site that a run or a call has been given. -/
def Issued (c : Context) (s : Site) : Prop :=
  s.callOrder = 0 ∧ s.sequence < c.runs s.method ∨
    0 < s.callOrder ∧ s.callOrder ≤ c.calls s.method s.sequence

/-- Everything that is stored is about sites that have been given out. -/
structure Settled (c : Context) : Prop where
  call : ∀ k s, c.sites.find? k = some s → c.Issued k.parent ∧ c.Issued s
  allocation : ∀ p n, c.allocations.find? p = some n → c.Issued p.1

/-- No counter goes back. -/
structure CountsUp (c d : Context) : Prop where
  runs : ∀ m, c.runs m ≤ d.runs m
  calls : ∀ m n, c.calls m n ≤ d.calls m n

/-- Issued sites stay issued. -/
theorem Issued.mono (hs : c.Issued s) (h : c.CountsUp d) : d.Issued s := by
  have hruns := h.runs s.method
  have hcalls := h.calls s.method s.sequence
  unfold Issued at hs ⊢
  omega

theorem settled_empty : empty.Settled where
  call _ _ h := by simp [empty] at h
  allocation _ _ h := by simp [empty] at h

/-- An operation that stores nothing keeps a context settled. -/
theorem Settled.of_eq (h : c.Settled) (hup : c.CountsUp d) (hsites : d.sites = c.sites)
    (hallocations : d.allocations = c.allocations) : d.Settled where
  call k s hs := by
    rw [hsites] at hs
    exact ⟨(h.call k s hs).1.mono hup, (h.call k s hs).2.mono hup⟩
  allocation p n hn := by
    rw [hallocations] at hn
    exact (h.allocation p n hn).mono hup

theorem countsUp_of_eq (hsequences : d.sequences = c.sequences)
    (horders : d.callOrders = c.callOrders) : c.CountsUp d where
  runs m := Nat.le_of_eq (by rw [runs, runs, hsequences])
  calls m n := Nat.le_of_eq (by rw [calls, calls, horders])

theorem countsUp_rootSite (c : Context) (m : MethodRef) : c.CountsUp (c.rootSite m).2 where
  runs m' := by
    rw [runs_rootSite]
    split
    · next heq =>
        subst heq
        omega
    · exact Nat.le_refl _
  calls _ _ := Nat.le_refl _

/-- The site of a run is issued. -/
theorem issued_rootSite (c : Context) (m : MethodRef) :
    (c.rootSite m).2.Issued (c.rootSite m).1 := by
  refine Or.inl ⟨rfl, ?_⟩
  simp [rootSite, runs, Table.find?_set]

/-- The site of a new run has not been given out before. -/
theorem not_issued_rootSite (c : Context) (m : MethodRef) : ¬ c.Issued (c.rootSite m).1 := by
  simp [Issued, rootSite, runs]

theorem calls_callSite_of_none (h : c.sites.find? k = none) (m : MethodRef) (n : Nat) :
    (c.callSite k.parent k.offset k.callee).2.calls m n =
      if (k.callee, k.parent.sequence) = (m, n) then c.calls m n + 1 else c.calls m n := by
  rw [callSite_of_none h, calls]
  simp only [Table.find?_set]
  split
  · next heq =>
      obtain ⟨rfl, rfl⟩ := Prod.mk.inj heq
      rfl
  · rfl

/-- Invocations count up. -/
theorem countsUp_callSite (c : Context) (k : CallKey) :
    c.CountsUp (c.callSite k.parent k.offset k.callee).2 where
  runs m := by
    cases h : c.sites.find? k with
    | some s =>
        exact Nat.le_of_eq (by rw [callSite_of_some h])
    | none =>
        rw [callSite_of_none h]
        exact Nat.le_refl _
  calls m n := by
    cases h : c.sites.find? k with
    | some s =>
        exact Nat.le_of_eq (by rw [callSite_of_some h])
    | none =>
        rw [calls_callSite_of_none h]
        split <;> omega

/-- The site of a call that had none has not been given out before. -/
theorem not_issued_callSite (h : c.sites.find? k = none) :
    ¬ c.Issued (c.callSite k.parent k.offset k.callee).1 := by
  rw [callSite_of_none h]
  simp [Issued]

/-- Sites of callees are issued. -/
theorem issued_callSite (hc : c.Settled) (k : CallKey) :
    (c.callSite k.parent k.offset k.callee).2.Issued
      (c.callSite k.parent k.offset k.callee).1 := by
  cases h : c.sites.find? k with
  | some s =>
      rw [callSite_of_some h]
      exact (hc.call k s h).2
  | none =>
      refine Or.inr ⟨?_, ?_⟩
      · rw [callSite_of_none h]
        exact Nat.succ_pos _
      · rw [calls_callSite_of_none h, callSite_of_none h]
        simp

theorem Settled.callSite (hc : c.Settled) (hk : c.Issued k.parent) :
    (c.callSite k.parent k.offset k.callee).2.Settled := by
  have hup := c.countsUp_callSite k
  have hissued := c.issued_callSite hc k
  cases h : c.sites.find? k with
  | some s =>
      rw [callSite_of_some h]
      exact hc
  | none =>
      rw [callSite_of_none h] at hup hissued ⊢
      refine ⟨fun k' s hs => ?_, fun p n hn => (hc.allocation p n hn).mono hup⟩
      simp only [Table.find?_set] at hs
      split at hs
      · next heq =>
          subst heq
          obtain rfl := Option.some.inj hs
          exact ⟨hk.mono hup, hissued⟩
      · exact ⟨(hc.call k' s hs).1.mono hup, (hc.call k' s hs).2.mono hup⟩

/-- Allocations count up. -/
theorem countsUp_pointer (c : Context) (site : Site) (offset : Nat) (type : TypeRef) :
    c.CountsUp (c.pointer site offset type).2 := by
  obtain ⟨n, -, heq⟩ | ⟨-, n, heq⟩ := c.pointer_cases site offset type
  · rw [heq]
    exact countsUp_of_eq rfl rfl
  · rw [heq]
    exact countsUp_of_eq rfl rfl

theorem Settled.pointer (hc : c.Settled) {site : Site} (hsite : c.Issued site) (offset : Nat)
    (type : TypeRef) : (c.pointer site offset type).2.Settled := by
  have hup := c.countsUp_pointer site offset type
  obtain ⟨n, -, heq⟩ | ⟨-, n, heq⟩ := c.pointer_cases site offset type
  · rw [heq]
    exact hc
  · rw [heq] at hup ⊢
    refine ⟨fun k s hs => ⟨(hc.call k s hs).1.mono hup, (hc.call k s hs).2.mono hup⟩, ?_⟩
    intro p n' hn
    simp only [Table.find?_set] at hn
    split at hn
    · next heq =>
        subst heq
        exact hsite.mono hup
    · exact (hc.allocation p n' hn).mono hup

/-- Nothing is stored about a site that has not been given out. -/
theorem Settled.find?_sites (hc : c.Settled) (hs : ¬ c.Issued s) (offset : Nat)
    (callee : MethodRef) : c.sites.find? ⟨s, offset, callee⟩ = none := by
  cases h : c.sites.find? ⟨s, offset, callee⟩ with
  | none => rfl
  | some t => exact absurd (hc.call _ t h).1 hs

theorem Settled.find?_allocations (hc : c.Settled) (hs : ¬ c.Issued s) (offset : Nat) :
    c.allocations.find? (s, offset) = none := by
  cases h : c.allocations.find? (s, offset) with
  | none => rfl
  | some n => exact absurd (hc.allocation _ n h) hs

/-! ## operations of a run -/

/-- One operation of a run with a root: it asks about sites that have been given out, and the flows
that it records belong to the root. -/
inductive RunStep (root : Site) : Context → Context → Prop where
  | callSite {c : Context} {k : CallKey} (hk : c.Issued k.parent) :
      RunStep root c (c.callSite k.parent k.offset k.callee).2
  | pointer {c : Context} {site : Site} (hsite : c.Issued site) (offset : Nat) (type : TypeRef) :
      RunStep root c (c.pointer site offset type).2
  | flow (c : Context) {key : FlowKey} (hkey : key.root? = some root) :
      RunStep root c (c.flow key).2
  | paths (c : Context) (f : Form) (limit : Nat) : RunStep root c (c.paths f limit).2

/-- Flows touch nothing else. -/
theorem flow_snd (c : Context) (key : FlowKey) :
    ∃ flows nextFlow, (c.flow key).2 = { c with flows, nextFlow } := by
  obtain ⟨f, -, heq⟩ | ⟨-, f, heq⟩ := c.flow_cases key
  · rw [heq]
    exact ⟨c.flows, c.nextFlow, rfl⟩
  · rw [heq]
    exact ⟨_, _, rfl⟩

/-- A step counts up. -/
theorem RunStep.countsUp (h : RunStep root c d) : c.CountsUp d := by
  cases h with
  | callSite hk => exact c.countsUp_callSite _
  | pointer hsite offset type => exact c.countsUp_pointer _ offset type
  | @flow key hkey =>
      obtain ⟨flows, nextFlow, heq⟩ := c.flow_snd key
      rw [heq]
      exact countsUp_of_eq rfl rfl
  | paths f limit =>
      obtain ⟨skeletons, heq⟩ := c.paths_snd f limit
      rw [heq]
      exact countsUp_of_eq rfl rfl

/-- A step keeps contexts settled. -/
theorem RunStep.settled (h : RunStep root c d) (hc : c.Settled) : d.Settled := by
  have hup := h.countsUp
  cases h with
  | callSite hk => exact hc.callSite hk
  | pointer hsite offset type => exact hc.pointer hsite offset type
  | @flow key hkey =>
      obtain ⟨flows, nextFlow, heq⟩ := c.flow_snd key
      rw [heq] at hup ⊢
      exact hc.of_eq hup rfl rfl
  | paths f limit =>
      obtain ⟨skeletons, heq⟩ := c.paths_snd f limit
      rw [heq] at hup ⊢
      exact hc.of_eq hup rfl rfl

/-- All recorded flows belong to one root. -/
def FlowsOf (c : Context) (root : Site) : Prop := ∀ p ∈ c.flows.entries, p.1.root? = some root

/-- A step adds flows of its run only. -/
theorem RunStep.flowsOf (h : RunStep root c d) (hc : c.FlowsOf root) : d.FlowsOf root := by
  cases h with
  | @callSite k hk =>
      obtain ⟨s, -, heq⟩ | ⟨-, order, s, -, heq⟩ := c.callSite_cases k.parent k.offset k.callee
      all_goals rw [heq]; exact hc
  | @pointer site hsite offset type =>
      obtain ⟨n, -, heq⟩ | ⟨-, n, heq⟩ := c.pointer_cases site offset type
      all_goals rw [heq]; exact hc
  | @flow key hkey =>
      obtain ⟨f, -, heq⟩ | ⟨hnone, f, heq⟩ := c.flow_cases key
      · rw [heq]
        exact hc
      · rw [heq]
        intro p hp
        simp only [Table.insertNew, Table.contains, hnone, Option.isSome_none, Bool.false_eq_true,
          if_false, List.mem_cons] at hp
        obtain rfl | hold := hp
        · exact hkey
        · exact hc p hold
  | paths f limit =>
      obtain ⟨skeletons, heq⟩ := c.paths_snd f limit
      rw [heq]
      exact hc

/-- What one operation keeps, any number of operations keep. -/
theorem steps_settled (h : ReflTransGen (RunStep root) c d) (hc : c.Settled) : d.Settled := by
  induction h with
  | refl => exact hc
  | tail _ hstep ih => exact hstep.settled ih

theorem steps_issued (h : ReflTransGen (RunStep root) c d) (hs : c.Issued s) :
    d.Issued s := by
  induction h with
  | refl => exact hs
  | tail _ hstep ih => exact ih.mono hstep.countsUp

theorem steps_flowsOf (h : ReflTransGen (RunStep root) c d) (hc : c.FlowsOf root) :
    d.FlowsOf root := by
  induction h with
  | refl => exact hc
  | tail _ hstep ih => exact hstep.flowsOf ih

/-- The flows of a root are all there are: releasing them leaves none. -/
theorem flowCount_release (h : c.FlowsOf root) : (c.release root).flowCount = 0 := by
  have hnil : c.flows.entries.filter (·.1.root? ≠ some root) = [] := by
    rw [List.filter_eq_nil_iff]
    intro p hp
    simp [h p hp]
  unfold flowCount release Table.size
  rw [hnil, List.length_nil]

end Context

/-! ## computations -/

namespace Run

open Context

variable {α β : Type} {root site : Site}

/-- A computation at a site only does operations of the run, whether it fails or not. -/
def Stays (root site : Site) (x : Run α) : Prop :=
  ∀ c : Context, c.Settled → c.Issued site → ReflTransGen (RunStep root) c (x.exec c).2

theorem Stays.pure (a : α) : Stays root site (Pure.pure a : Run α) := fun _ _ _ => .refl

theorem Stays.throw (err : CoverageError) : Stays root site (MonadExcept.throw err : Run α) :=
  fun _ _ _ => .refl

theorem Stays.bind {x : Run α} {f : α → Run β} (hx : Stays root site x)
    (hf : ∀ a, Stays root site (f a)) : Stays root site (x >>= f) := by
  intro c hc hsite
  have hsteps := hx c hc hsite
  rcases hxc : x.exec c with ⟨err | a, c'⟩
  · rw [exec_bind_of_error hxc]
    rwa [hxc] at hsteps
  · rw [exec_bind_of_ok hxc]
    rw [hxc] at hsteps
    exact hsteps.trans (hf a c' (steps_settled hsteps hc) (steps_issued hsteps hsite))

theorem Stays.withContext {f : Context → α × Context}
    (h : ∀ c : Context, c.Issued site → RunStep root c (f c).2) :
    Stays root site (Run.withContext f) := fun c _ hsite => .single (h c hsite)

theorem congruence_stays : Congruence fun _ x _ => Stays root site x where
  pure := .pure
  bind := .bind

theorem Stays.ofExcept (r : Except CoverageError α) : Stays root site (ofExcept r) := by
  cases r with
  | ok a => exact .pure a
  | error err => exact .throw err

/-! ## rendering -/

theorem stays_checkLimit (e : Engine) (m : MethodRef) (count : Nat) :
    Stays root site (checkLimit e m count) := by
  unfold checkLimit
  split
  · exact .throw _
  · exact .pure ()

theorem stays_pointerTerm (e : Engine) (offset : Nat) (type : TypeRef) (target : String) :
    Stays root site (pointerTerm e site offset type target) := by
  unfold pointerTerm
  cases e.types.find? type with
  | none => exact .throw _
  | some s =>
      refine (Stays.withContext fun c hsite => .pointer hsite offset type).bind fun pointer => ?_
      cases s.apply (.hasPointer (.atom target) pointer) with
      | ok term => exact .pure term
      | error cause => exact .throw _

section Flows

variable {stack : List Site} (hstack : stack.head? = some root)

include hstack

theorem stays_record (offset : Nat) (source : Sexp) (target : String) (s : PathState) :
    Stays root site (record site stack offset source target s) := by
  have hroot : FlowKey.root? ⟨offset, source.render, target, site, stack⟩ = some root := hstack
  exact (Stays.withContext fun c _ => .flow c hroot).bind fun _ => .pure _

variable (e : Engine) (form : Form) {inline : Inliner}
  (hinline : ∀ offset callee, Stays root site (inline offset callee))

include hinline

theorem relates_stays : Relates (fun _ x _ => Stays root site x) e e form site stack inline inline
    (fun _ => True) where
  toCongruence := congruence_stays
  record := stays_record hstack
  limit := stays_checkLimit e form.method
  missing _ err _ _ := .throw err
  pointer p _ _ type target _ := stays_pointerTerm e p.statement.offset type target
  callee p _ _ callee _ _ := hinline p.statement.offset callee

/-- Rendering a form stays in its run. -/
theorem stays_renderForm : Stays root site (renderForm e form site stack inline) := by
  have hpaths : Stays root site (withContext (·.paths form e.options.maxPaths)) :=
    .withContext fun c _ => .paths c form e.options.maxPaths
  exact hpaths.bind fun r => (Stays.ofExcept r).bind fun skeletons =>
    (relates_stays hstack e form hinline).renderAll (fun _ _ _ _ => trivial) 0

omit hinline

/-- An inlined callee runs at a site of its own, given to it for the call. -/
theorem stays_inlineWith {render : Form → Site → List Site → Run (List PathState)}
    (hrender : ∀ form s stack, stack.head? = some root → Stays root s (render form s stack))
    (offset : Nat) (callee : MethodRef) :
    Stays root site (inlineWith e render site stack offset callee) := by
  unfold inlineWith
  cases e.form? callee with
  | none => exact .throw _
  | some form =>
      simp only
      split
      · exact .pure none
      · split
        · exact .pure none
        · intro c hc hsite
          have hcall : (withContext (·.callSite site offset callee)).exec c =
              (.ok (c.callSite site offset callee).1, (c.callSite site offset callee).2) := rfl
          rw [exec_bind_of_ok hcall]
          have hhead : (stack ++ [(c.callSite site offset callee).1]).head? = some root := by
            rw [List.head?_append, hstack]
            rfl
          have hstep : RunStep root c (c.callSite site offset callee).2 :=
            .callSite (k := ⟨site, offset, callee⟩) hsite
          exact .head hstep (((hrender form _ _ hhead).bind fun paths => .pure _) _
            (hstep.settled hc) (c.issued_callSite hc ⟨site, offset, callee⟩))

end Flows

/-- **A run only does operations of its own.** -/
theorem stays_render (e : Engine) (depth : Nat) (form : Form) (site : Site) (stack : List Site)
    (hstack : stack.head? = some root) : Stays root site (render e depth form site stack) := by
  induction depth generalizing form site stack with
  | zero =>
      exact stays_renderForm hstack e form
        (stays_inlineWith hstack e fun _ _ _ _ => .pure [])
  | succ depth ih => exact stays_renderForm hstack e form (stays_inlineWith hstack e ih)

end Run

/-! ## runs one after the other -/

namespace Context

/-- What holds of a context between runs. -/
structure Idle (c : Context) : Prop where
  settled : c.Settled
  flowless : c.flows.entries = []

theorem idle_empty : empty.Idle := ⟨settled_empty, rfl⟩

/-- A run leaves its context as it should be between runs, also if it fails. -/
theorem Idle.cover {c : Context} (hc : c.Idle) (e : Engine) (m : MethodRef) :
    (e.cover m c).2.Idle := by
  unfold Engine.cover Engine.renderGroups
  cases e.form? m with
  | none => exact hc
  | some form =>
      have hroot : (c.rootSite m).2.Settled :=
        hc.settled.of_eq (c.countsUp_rootSite m) rfl rfl
      have hsteps := Run.stays_render e e.inliningDepth form (c.rootSite m).1 [(c.rootSite m).1] rfl
        _ hroot (c.issued_rootSite m)
      have hflowless : (c.rootSite m).2.flows.entries = [] := hc.flowless
      have hflows := steps_flowsOf hsteps (by simp [FlowsOf, hflowless])
      refine ⟨(steps_settled hsteps hroot).of_eq (countsUp_of_eq rfl rfl) rfl rfl, ?_⟩
      exact List.eq_nil_of_length_eq_zero (flowCount_release hflows)

/-- The context after runs, from a new one. -/
def after (calls : List (Engine × MethodRef)) : Context :=
  calls.foldl (fun c call => (call.1.cover call.2 c).2) empty

theorem Idle.runs {c : Context} (hc : c.Idle) (calls : List (Engine × MethodRef)) :
    (calls.foldl (fun c call => (call.1.cover call.2 c).2) c).Idle := by
  induction calls generalizing c with
  | nil => exact hc
  | cons call calls ih => exact ih (hc.cover call.1 call.2)

/-- Between runs contexts are idle. -/
theorem idle_after (calls : List (Engine × MethodRef)) : (after calls).Idle := idle_empty.runs calls

/-- **Runs leave no flows behind**, of any engines and methods and whichever way they end. -/
theorem flowCount_after (calls : List (Engine × MethodRef)) : (after calls).flowCount = 0 := by
  unfold flowCount Table.size
  rw [(idle_after calls).flowless, List.length_nil]

end Context

end Pathwise
