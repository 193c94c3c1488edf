import Pathwise.Proofs.Congruence

/-!
# Pathwise.Proofs.Limit

The limit on the number of paths decides only whether a run succeeds: what a run
returns within one limit, it returns within any larger one (`Run.lifts_render`).

Runs with different limits store the paths of forms under different keys, so the
contexts they go through are the same up to stored paths (`Context.SameNumbers`).
-/

namespace Pathwise

/-! ## enumerating -/

namespace Form

variable {f : Form} {limit limit' : Nat} {steps : List PathStep}

theorem finish_mono (hle : limit ≤ limit') {paths out : Array Skeleton} {exit : ExitKind}
    (h : f.finish limit paths steps exit = .ok out) :
    f.finish limit' paths steps exit = .ok out := by
  unfold finish at h ⊢
  split at h
  · contradiction
  · next hroom => rwa [if_neg (by omega)]

theorem foldlM_mono {α β ε : Type} {step step' : β → α → Except ε β} {l : List α}
    (hstep : ∀ b, ∀ a ∈ l, ∀ b', step b a = .ok b' → step' b a = .ok b') {b out : β}
    (h : l.foldlM step b = .ok out) : l.foldlM step' b = .ok out := by
  induction l generalizing b with
  | nil => exact h
  | cons a l ih =>
      rw [List.foldlM_cons] at h ⊢
      cases ha : step b a with
      | error err =>
          rw [ha] at h
          contradiction
      | ok next =>
          rw [ha] at h
          rw [hstep b a List.mem_cons_self next ha]
          exact ih (fun b a ha => hstep b a (List.mem_cons_of_mem _ ha)) h

/-- Larger limits find the same. -/
theorem walk_mono (hle : limit ≤ limit') {fuel : Nat} {id : BlockId} {onPath : List BlockIndex}
    {paths out : Array Skeleton} (h : f.walk limit fuel id steps onPath paths = .ok out) :
    f.walk limit' fuel id steps onPath paths = .ok out := by
  induction fuel generalizing id steps onPath paths out with
  | zero => exact h
  | succ fuel ih =>
      cases hb : f.block? id with
      | none =>
          rw [walk, hb] at h
          contradiction
      | some b =>
          rw [walk_succ hb] at h ⊢
          refine foldlM_mono (fun paths x _ next hnext => ?_) h
          unfold walkTurn at hnext ⊢
          cases hturn : turn onPath x.1 with
          | leave exit =>
              simp only [hturn] at hnext ⊢
              exact finish_mono hle hnext
          | go onPath' =>
              simp only [hturn] at hnext ⊢
              exact ih hnext

/-- Paths that can be enumerated within a limit are the same within any larger one. -/
theorem paths_mono (hle : limit ≤ limit') {ps : List Skeleton} (h : f.paths limit = .ok ps) :
    f.paths limit' = .ok ps := by
  unfold paths at h ⊢
  cases hwalk : f.walk limit (f.blocks.length + 1) .entry [] [] #[] with
  | error err =>
      rw [hwalk] at h
      contradiction
  | ok out =>
      rw [hwalk] at h
      rw [walk_mono hle hwalk]
      exact h

theorem exists_of_foldlM_eq_error {α β ε : Type} {step : β → α → Except ε β} {l : List α} {b : β}
    {err : ε} (h : l.foldlM step b = .error err) : ∃ b, ∃ a ∈ l, step b a = .error err := by
  induction l generalizing b with
  | nil => contradiction
  | cons a l ih =>
      rw [List.foldlM_cons] at h
      cases ha : step b a with
      | error err' =>
          rw [ha] at h
          exact ⟨b, a, List.mem_cons_self, ha.trans h⟩
      | ok next =>
          rw [ha] at h
          obtain ⟨b', a', ha', herr⟩ := ih h
          exact ⟨b', a', List.mem_cons_of_mem _ ha', herr⟩

theorem limit_of_walk_eq_error {fuel : Nat} {id : BlockId} {onPath : List BlockIndex}
    {paths : Array Skeleton} {m : MethodRef}
    (h : f.walk limit fuel id steps onPath paths = .error (.pathLimit m limit')) :
    limit' = limit := by
  induction fuel generalizing id steps onPath paths with
  | zero => contradiction
  | succ fuel ih =>
      cases hb : f.block? id with
      | none =>
          rw [walk, hb] at h
          cases Except.error.inj h
      | some b =>
          rw [walk_succ hb] at h
          obtain ⟨paths', x, -, herr⟩ := exists_of_foldlM_eq_error h
          unfold walkTurn finish at herr
          cases hturn : turn onPath x.1 with
          | leave exit =>
              simp only [hturn] at herr
              split at herr
              · cases herr
                rfl
              · contradiction
          | go onPath' =>
              simp only [hturn] at herr
              exact ih herr

/-- The error has the limit. -/
theorem limit_of_paths_eq_error {m : MethodRef}
    (h : f.paths limit = .error (.pathLimit m limit')) : limit' = limit := by
  unfold paths at h
  cases hwalk : f.walk limit (f.blocks.length + 1) .entry [] [] #[] with
  | error err =>
      rw [hwalk] at h
      obtain rfl : err = .pathLimit m limit' := Except.error.inj h
      exact limit_of_walk_eq_error hwalk
  | ok out =>
      rw [hwalk] at h
      contradiction

end Form

/-! ## contexts up to stored paths -/

namespace Context

/-- Two contexts with the same numbers; the paths that they store are right, but need not be
the same. -/
structure SameNumbers (c d : Context) : Prop where
  left : c.Sound
  right : d.Sound
  eq : d = { c with skeletons := d.skeletons }

/-- An operation that does not look at stored paths. -/
def Blind {α : Type} (f : Context → α × Context) : Prop :=
  ∀ c skeletons, f { c with skeletons } = ((f c).1, { (f c).2 with skeletons })

theorem blind_callSite (parent : Site) (offset : Nat) (callee : MethodRef) :
    Blind (·.callSite parent offset callee) := by
  intro c skeletons
  unfold callSite
  dsimp only
  cases c.sites.find? ⟨parent, offset, callee⟩ <;> rfl

theorem blind_pointer (site : Site) (offset : Nat) (type : TypeRef) :
    Blind (·.pointer site offset type) := by
  intro c skeletons
  unfold pointer
  dsimp only
  cases c.allocations.find? (site, offset) <;> rfl

theorem blind_flow (key : FlowKey) : Blind (·.flow key) := by
  intro c skeletons
  unfold flow
  dsimp only
  cases c.flows.find? key <;> rfl

/-- Only an enumeration can fail. -/
theorem paths_eq_error {c : Context} {f : Form} {limit : Nat} {err : CoverageError}
    (h : (c.paths f limit).1 = .error err) : f.paths limit = .error err := by
  obtain ⟨ps, -, heq⟩ | ⟨err', herr, heq⟩ | ⟨ps, -, heq⟩ := c.paths_cases f limit
  · rw [heq] at h
    contradiction
  · rw [heq] at h
    exact herr.trans h
  · rw [heq] at h
    contradiction

/-- Looking the paths of a form up with different limits keeps the numbers the same. -/
theorem SameNumbers.paths {c d : Context} (h : c.SameNumbers d) (f : Form) (limit limit' : Nat) :
    (c.paths f limit).2.SameNumbers (d.paths f limit').2 where
  left := h.left.of_paths f limit
  right := h.right.of_paths f limit'
  eq := by
    obtain ⟨skeletons, hc⟩ := c.paths_snd f limit
    obtain ⟨skeletons', hd⟩ := d.paths_snd f limit'
    rw [hc, hd, h.eq]

end Context

/-! ## computations -/

namespace Run

variable {α β : Type} {limit : Nat}

/-- What `x` returns, `y` returns too, with the same numbers after it; and if `x` finds too many
paths, `limit` is how many it allows. -/
structure Lifts (limit : Nat) (x y : Run α) : Prop where
  value : ∀ c d c' : Context, ∀ a, c.SameNumbers d → x.exec c = (.ok a, c') →
    ∃ d', y.exec d = (.ok a, d') ∧ c'.SameNumbers d'
  error : ∀ c m l, (x.exec c).1 = .error (.pathLimit m l) → l = limit

theorem Lifts.pure (a : α) : Lifts limit (Pure.pure a : Run α) (Pure.pure a) where
  value c d c' b h hx := by
    obtain ⟨ha, rfl⟩ := Prod.mk.inj hx
    exact ⟨d, congrArg (·, d) ha, h⟩
  error _ _ _ h := by contradiction

theorem Lifts.throw {err : CoverageError} (h : ∀ m l, err = .pathLimit m l → l = limit)
    (y : Run α) : Lifts limit (MonadExcept.throw err : Run α) y where
  value _ _ _ _ _ hx := by
    obtain ⟨herr, -⟩ := Prod.mk.inj hx
    contradiction
  error _ m l hx := h m l (Except.error.inj hx)

/-- Limits are lifted in sequence. -/
theorem Lifts.bind {x y : Run α} {f g : α → Run β} (hxy : Lifts limit x y)
    (hfg : ∀ a, Lifts limit (f a) (g a)) : Lifts limit (x >>= f) (y >>= g) where
  value c d c' b h hb := by
    rcases hx : x.exec c with ⟨err | a, c₁⟩
    · rw [exec_bind_of_error hx] at hb
      obtain ⟨herr, -⟩ := Prod.mk.inj hb
      contradiction
    · rw [exec_bind_of_ok hx] at hb
      obtain ⟨d₁, hy, hsame⟩ := hxy.value c d c₁ a h hx
      rw [exec_bind_of_ok hy]
      exact (hfg a).value c₁ d₁ c' b hsame hb
  error c m l hb := by
    rcases hx : x.exec c with ⟨err | a, c₁⟩
    · rw [exec_bind_of_error hx] at hb
      refine hxy.error c m l ?_
      rw [hx]
      exact congrArg Except.error (Except.error.inj hb)
    · rw [exec_bind_of_ok hx] at hb
      exact (hfg a).error c₁ m l hb

theorem Lifts.withContext {f : Context → α × Context} (hstep : ∀ c, Context.Step c (f c).2)
    (hblind : Context.Blind f) : Lifts limit (Run.withContext f) (Run.withContext f) where
  value c d c' a h hx := by
    obtain ⟨ha, rfl⟩ := Prod.mk.inj hx
    have hd : f d = ((f c).1, { (f c).2 with skeletons := d.skeletons }) := by
      rw [h.eq]
      exact hblind c d.skeletons
    have hfst : (f d).1 = (f c).1 := by rw [hd]
    refine ⟨(f d).2, Prod.ext ((congrArg Except.ok hfst).trans ha) rfl,
      (hstep c).sound h.left, (hstep d).sound h.right, ?_⟩
    rw [hd]
  error _ _ _ h := by contradiction

theorem congruence_lifts : Congruence fun _ x y => Lifts limit x y where
  pure := .pure
  bind := .bind

/-! ## statements -/

theorem lifts_record (site : Site) (stack : List Site) (offset : Nat) (source : Sexp)
    (target : String) (s : PathState) :
    Lifts limit (record site stack offset source target s)
      (record site stack offset source target s) :=
  (Lifts.withContext (fun c => .flow c _) (Context.blind_flow _)).bind fun _ => .pure _

theorem lifts_pointerTerm (e : Engine) (site : Site) (offset : Nat) (type : TypeRef)
    (target : String) : Lifts limit (pointerTerm e site offset type target)
      (pointerTerm e site offset type target) := by
  unfold pointerTerm
  cases e.types.find? type with
  | none => exact .throw (fun _ _ h => by contradiction) _
  | some s =>
      refine (Lifts.withContext (fun c => .pointer c site offset type)
        (Context.blind_pointer site offset type)).bind fun pointer => ?_
      cases s.apply (.hasPointer (.atom target) pointer) with
      | ok term => exact .pure term
      | error cause => exact .throw (fun _ _ h => by contradiction) _

end Run

/-! ## forms -/

/-- The engine with another limit on the number of paths. -/
def Engine.allowing (e : Engine) (limit : Nat) : Engine :=
  { e with options := { e.options with maxPaths := limit } }

namespace Run

/-- Inliners that return the same paths, whatever the limit. -/
def InlinersLift (limit : Nat) (inline inline' : Inliner) : Prop :=
  ∀ offset callee, Lifts limit (inline offset callee) (inline' offset callee)

theorem exec_skeletons (form : Form) (limit : Nat) (c : Context) :
    (withContext (·.paths form limit) >>= ofExcept).exec c = c.paths form limit := by
  have hpaths : (withContext (·.paths form limit)).exec c =
      (.ok (c.paths form limit).1, (c.paths form limit).2) := rfl
  rw [exec_bind_of_ok hpaths]
  rcases c.paths form limit with ⟨err | ps, c'⟩ <;> rfl

theorem stepStatements_ne_pathLimit (form : Form) (step : PathStep) (m : MethodRef) (limit : Nat) :
    stepStatements form step ≠ .error (.pathLimit m limit) := by
  unfold stepStatements
  cases form.block? step.block with
  | none => simp
  | some b =>
      simp only
      cases b.successors[step.edge]? <;> simp

section Limit

variable {e : Engine} {larger : Nat} (hle : e.options.maxPaths ≤ larger)

include hle

theorem lifts_checkLimit (m : MethodRef) (count : Nat) :
    Lifts e.options.maxPaths (checkLimit e m count) (checkLimit (e.allowing larger) m count) := by
  unfold checkLimit
  by_cases hcount : e.options.maxPaths < count
  · rw [if_pos hcount]
    exact .throw (fun m l h => by cases h; rfl) _
  · have hlarger : ¬ (e.allowing larger).options.maxPaths < count := by
      change ¬ larger < count
      omega
    rw [if_neg hcount, if_neg hlarger]
    exact .pure ()

variable {inline inline' : Inliner} (hinline : InlinersLift e.options.maxPaths inline inline')
  (form : Form) (site : Site) (stack : List Site)

theorem lifts_skeletons :
    Lifts e.options.maxPaths (withContext (·.paths form e.options.maxPaths) >>= ofExcept)
      (withContext (·.paths form larger) >>= ofExcept) where
  value c d c' ps h hps := by
    rw [exec_skeletons] at hps ⊢
    have hc : form.paths e.options.maxPaths = .ok ps := by
      rw [← h.left.paths_fst form, hps]
    have hd : (d.paths form larger).1 = .ok ps := by
      rw [h.right.paths_fst form, Form.paths_mono hle hc]
    refine ⟨(d.paths form larger).2, Prod.ext hd rfl, ?_⟩
    have hsame := h.paths form e.options.maxPaths larger
    rwa [hps] at hsame
  error c m l h := by
    rw [exec_skeletons] at h
    exact Form.limit_of_paths_eq_error (Context.paths_eq_error h)

include hinline

theorem relates_lifts : Relates (fun _ x y => Lifts e.options.maxPaths x y) e (e.allowing larger)
    form site stack inline inline' (fun _ => True) where
  toCongruence := congruence_lifts
  record := lifts_record site stack
  limit := lifts_checkLimit hle form.method
  missing step err _ hmissing := by
    refine .throw (fun m limit hlimit => ?_) _
    subst hlimit
    exact absurd hmissing (stepStatements_ne_pathLimit form step m limit)
  pointer p _ _ type target _ := lifts_pointerTerm e site p.statement.offset type target
  callee p _ _ callee _ _ := hinline p.statement.offset callee

/-- Limits of forms are lifted. -/
theorem lifts_renderForm :
    Lifts e.options.maxPaths (renderForm e form site stack inline)
      (renderForm (e.allowing larger) form site stack inline') := by
  rw [renderForm, renderForm, ← bind_assoc, ← bind_assoc]
  exact (lifts_skeletons hle form).bind fun skeletons =>
    (relates_lifts hle hinline form site stack).renderAll (fun _ _ _ _ => trivial) 0

omit hle hinline in
theorem lifts_inlineWith {render render' : Form → Site → List Site → Run (List PathState)}
    (hrender : ∀ form site stack,
      Lifts e.options.maxPaths (render form site stack) (render' form site stack)) :
    InlinersLift e.options.maxPaths (inlineWith e render site stack)
      (inlineWith (e.allowing larger) render' site stack) := by
  intro offset callee
  change Lifts _ (inlineWith e render site stack offset callee)
    (inlineWith e render' site stack offset callee)
  unfold inlineWith
  cases e.form? callee with
  | none => exact .throw (fun _ _ h => by contradiction) _
  | some form =>
      simp only
      split
      · exact .pure none
      · split
        · exact .pure none
        · exact (Lifts.withContext (fun c => .callSite c site offset callee)
            (Context.blind_callSite site offset callee)).bind fun calleeSite =>
              (hrender form calleeSite _).bind fun paths => .pure _

end Limit

/-- **A larger limit changes nothing** about a run that succeeds. -/
theorem lifts_render {e : Engine} {larger : Nat} (hle : e.options.maxPaths ≤ larger) (depth : Nat)
    (form : Form) (site : Site) (stack : List Site) :
    Lifts e.options.maxPaths (render e depth form site stack)
      (render (e.allowing larger) depth form site stack) := by
  induction depth generalizing form site stack with
  | zero =>
      have hinline : InlinersLift e.options.maxPaths
          (inlineWith e (fun _ _ _ => Pure.pure []) site stack)
          (inlineWith (e.allowing larger) (fun _ _ _ => Pure.pure []) site stack) :=
        lifts_inlineWith site stack fun _ _ _ => .pure []
      exact lifts_renderForm hle hinline form site stack
  | succ depth ih =>
      exact lifts_renderForm hle (lifts_inlineWith site stack ih) form site stack

end Run

end Pathwise
