import Pathwise.Proofs.Congruence
import Pathwise.Proofs.Coverable.Form

/-!
# Pathwise.Proofs.Coverable.Run

Runs that can fail in one way only. An engine is provisioned if it has what the
paths of all its forms need; then covering any of its methods succeeds, or there
are more paths than the options allow (`Engine.cover_of_provisioned`).

`Run.Safe` is that property of a computation: it is kept when computations are put
together, and the parts of a rendering have it. For the walk through a form more is
known: it adds what `Form.explore` lists, if the limit allows for all of it
(`Form.walk_eq_gather`).
-/

namespace Pathwise

/-! ## walking -/

namespace Form

variable {f : Form} {limit : Nat} {paths : Array Skeleton}

theorem exists_block? {id : BlockId} (h : ∃ b ∈ f.blocks, b.id = id) :
    ∃ b, f.block? id = some b := by
  obtain ⟨b, hb, hid⟩ := h
  exact Option.isSome_iff_exists.1 (List.find?_isSome.2 ⟨b, hb, by simpa using hid⟩)

/-- Add paths to those found before, if the limit allows for all of them. -/
def gather (f : Form) (limit : Nat) (paths : Array Skeleton) (new : List Skeleton) :
    Except CoverageError (Array Skeleton) :=
  if paths.size + new.length ≤ limit then .ok (paths ++ new.toArray)
  else .error (.pathLimit f.method limit)

theorem gather_nil (hroom : paths.size ≤ limit) :
    f.gather limit paths [] = .ok paths := by
  rw [gather, if_pos (by simpa using hroom), Array.append_empty]

/-- Paths can be added in two parts. -/
theorem gather_bind (paths : Array Skeleton) (new more : List Skeleton) :
    (f.gather limit paths new).bind (fun next => f.gather limit next more) =
      f.gather limit paths (new ++ more) := by
  unfold gather
  by_cases hnew : paths.size + new.length ≤ limit
  · rw [if_pos hnew]
    change f.gather limit (paths ++ new.toArray) more = _
    simp only [gather, Array.size_append, List.size_toArray, List.length_append, Nat.add_assoc,
      Array.append_assoc, List.append_toArray]
  · have hmore : ¬paths.size + (new ++ more).length ≤ limit := by
      rw [List.length_append]
      omega
    rw [if_neg hnew, if_neg hmore]
    rfl

/-- What is gathered keeps to the limit. -/
theorem size_of_gather {paths next : Array Skeleton} {new : List Skeleton}
    (h : f.gather limit paths new = .ok next) : next.size ≤ limit := by
  unfold gather at h
  split at h
  · next hroom =>
      obtain rfl := Except.ok.inj h
      rwa [Array.size_append, List.size_toArray]
  · contradiction

theorem foldlM_eq_gather {α : Type}
    {step : Array Skeleton → α → Except CoverageError (Array Skeleton)} {add : α → List Skeleton}
    {l : List α}
    (hstep : ∀ paths, paths.size ≤ limit → ∀ x ∈ l, step paths x = f.gather limit paths (add x))
    (hroom : paths.size ≤ limit) : l.foldlM step paths = f.gather limit paths (l.flatMap add) := by
  induction l generalizing paths with
  | nil => exact (gather_nil hroom).symm
  | cons x l ih =>
      rw [List.foldlM_cons, hstep paths hroom x List.mem_cons_self, List.flatMap_cons,
        ← gather_bind]
      cases hx : f.gather limit paths (add x) with
      | error err => rfl
      | ok next =>
          exact ih (fun paths hroom y hy => hstep paths hroom y (List.mem_cons_of_mem x hy))
            (size_of_gather hx)

theorem finish_eq_gather (paths : Array Skeleton) (steps : List PathStep) (exit : ExitKind) :
    f.finish limit paths steps exit = f.gather limit paths [⟨steps.reverse, exit⟩] := by
  unfold finish gather
  by_cases hfull : limit ≤ paths.size
  · rw [if_pos hfull, if_neg (by simp only [List.length_singleton]; omega)]
  · rw [if_neg hfull, if_pos (by simp only [List.length_singleton]; omega)]
    rfl

/-- A walk adds the explored paths, if the limit allows for all of them. -/
theorem walk_eq_gather (hf : f.Walkable) (fuel : Nat) {id : BlockId}
    (hid : ∃ b ∈ f.blocks, b.id = id) (steps : List PathStep) (onPath : List BlockIndex)
    (hroom : paths.size ≤ limit) :
    f.walk limit fuel id steps onPath paths = f.gather limit paths
      ((f.explore fuel id onPath).map (Skeleton.after steps.reverse)) := by
  induction fuel generalizing id steps onPath paths with
  | zero => exact (gather_nil hroom).symm
  | succ fuel ih =>
      obtain ⟨b, hb⟩ := exists_block? hid
      rw [walk_succ hb, explore, hb, List.map_flatMap]
      refine foldlM_eq_gather (fun paths hroom x hx => ?_) hroom
      cases hturn : turn onPath x.1 with
      | leave exit =>
          simp only [walkTurn, hturn, List.map_singleton, finish_eq_gather, List.reverse_cons]
          rfl
      | go onPath' =>
          have hedge : x.1 ∈ b.successors :=
            List.mem_of_getElem? (List.mem_zipIdx_iff_getElem?.1 hx)
          have htarget := hf.edges b (of_block?_eq_some hb).1 x.1 hedge
          simp only [walkTurn, hturn, ih htarget _ _ hroom, List.map_map, List.reverse_cons]
          congr 2
          funext s
          simp [Skeleton.after]

/-- **The walk from the entry** of a walkable form finds the explored paths, unless there are more
than allowed. -/
theorem toList_walk_entry (hf : f.Walkable) (limit fuel : Nat) :
    (f.walk limit fuel .entry [] [] #[]).map Array.toList =
      if (f.explore fuel .entry []).length ≤ limit then .ok (f.explore fuel .entry [])
      else .error (.pathLimit f.method limit) := by
  have hnil : Skeleton.after [] = id := rfl
  rw [walk_eq_gather hf fuel hf.entry [] [] (Nat.zero_le limit), List.reverse_nil, hnil,
    List.map_id,
    gather, Array.size_empty, Nat.zero_add]
  split
  · exact congrArg Except.ok (by simp)
  · rfl

/-- Paths are found by a walk. -/
theorem paths_eq_walk (f : Form) (limit : Nat) :
    f.paths limit = (f.walk limit (f.blocks.length + 1) .entry [] [] #[]).map Array.toList := by
  unfold paths
  cases f.walk limit (f.blocks.length + 1) .entry [] [] #[] <;> rfl

end Form

/-! ## what paths need -/

/-- An engine has what a path needs at a statement: the form of the method that it runs, and a
sentence of references for what it allocates. -/
structure Engine.Supplies (e : Engine) (s : Statement) : Prop where
  callee : ∀ m ∈ s.effect.callee?, ∃ f, e.form? m = some f
  allocated : ∀ t ∈ s.effect.allocated?, ∃ x, e.types.find? t = some x ∧ x.isReference = true

/-- An engine has what the paths of a form need. -/
structure Engine.Follows (e : Engine) (f : Form) : Prop where
  walkable : f.Walkable
  supplies : ∀ p ∈ f.statements, e.Supplies p.statement

/-- An engine that has what the paths of all its forms need. -/
def Engine.Provisioned (e : Engine) : Prop := ∀ m f, e.form? m = some f → e.Follows f

namespace Run

variable {α β : Type} {e : Engine} {form : Form}

/-! ## computations that are safe -/

/-- A value that a computation returns in some sound context. -/
def Returns (x : Run α) (a : α) : Prop := ∃ c : Context, c.Sound ∧ (x.exec c).1 = .ok a

/-- A computation that, in any sound context, returns a value or finds more paths than allowed, and
leaves the context sound. -/
structure Safe (x : Run α) : Prop where
  sound : ∀ c : Context, c.Sound → (x.exec c).2.Sound
  result : ∀ c : Context, c.Sound →
    (∃ a, (x.exec c).1 = .ok a) ∨ ∃ m limit, (x.exec c).1 = .error (.pathLimit m limit)

theorem Safe.pure (a : α) : Safe (Pure.pure a : Run α) where
  sound _ hc := hc
  result _ _ := Or.inl ⟨a, rfl⟩

theorem Safe.pathLimit (m : MethodRef) (limit : Nat) :
    Safe (MonadExcept.throw (.pathLimit m limit) : Run α) where
  sound _ hc := hc
  result _ _ := Or.inr ⟨m, limit, rfl⟩

/-- Safe runs in sequence. -/
theorem Safe.bind {x : Run α} {f : α → Run β} (hx : x.Safe)
    (hf : ∀ a, x.Returns a → (f a).Safe) : (x >>= f).Safe where
  sound c hc := by
    have hsound := hx.sound c hc
    rcases hxc : x.exec c with ⟨err | a, c'⟩
    · rw [exec_bind_of_error hxc]
      rwa [hxc] at hsound
    · rw [exec_bind_of_ok hxc]
      rw [hxc] at hsound
      exact (hf a ⟨c, hc, by rw [hxc]⟩).sound c' hsound
  result c hc := by
    have hsound := hx.sound c hc
    have hresult := hx.result c hc
    rcases hxc : x.exec c with ⟨err | a, c'⟩
    · rw [exec_bind_of_error hxc]
      rw [hxc] at hresult
      obtain ⟨a, ha⟩ | ⟨m, limit, hlimit⟩ := hresult
      · contradiction
      · exact Or.inr ⟨m, limit, congrArg Except.error (Except.error.inj hlimit)⟩
    · rw [exec_bind_of_ok hxc]
      rw [hxc] at hsound
      exact (hf a ⟨c, hc, by rw [hxc]⟩).result c' hsound

theorem Safe.withContext {f : Context → α × Context} (hstep : ∀ c, Context.Step c (f c).2) :
    Safe (Run.withContext f) where
  sound c hc := (hstep c).sound hc
  result c _ := Or.inl ⟨(f c).1, rfl⟩

theorem congruence_safe : Congruence fun _ x _ => Safe x where
  pure := .pure
  bind hx hf := hx.bind fun a _ => hf a

/-! ## statements -/

theorem safe_checkLimit (e : Engine) (m : MethodRef) (count : Nat) :
    (checkLimit e m count).Safe := by
  unfold checkLimit
  split
  · exact .pathLimit _ _
  · exact .pure ()

theorem safe_record (site : Site) (stack : List Site) (offset : Nat) (source : Sexp)
    (target : String) (s : PathState) : (record site stack offset source target s).Safe :=
  (Safe.withContext fun c => .flow c _).bind fun _ _ => .pure _

theorem safe_pointerTerm {type : TypeRef} {x : Sentence} (hx : e.types.find? type = some x)
    (href : x.isReference = true) (site : Site) (offset : Nat) (target : String) :
    (pointerTerm e site offset type target).Safe := by
  unfold pointerTerm
  rw [hx]
  refine (Safe.withContext fun c => .pointer c site offset type).bind fun pointer _ => ?_
  obtain ⟨term, hterm⟩ := Sentence.exists_hasPointer href (.atom target) pointer
  rw [hterm]
  exact .pure term

theorem allocated_of_demand {r : Renaming} {effect : Effect} {type : TypeRef} {target : String}
    (h : (demand r effect).allocated = some (type, target)) : effect.allocated? = some type := by
  cases effect with
  | allocate t x => exact congrArg (·.map Prod.fst) h
  | construct t x constructor arguments => exact congrArg (·.map Prod.fst) h
  | _ => simp [demand] at h

theorem callee_of_demand {r : Renaming} {effect : Effect} {callee : MethodRef}
    {rest : List Sexp × Option String} (h : (demand r effect).call = some (callee, rest)) :
    effect.callee? = some callee := by
  cases effect with
  | call m arguments target => exact congrArg (·.map Prod.fst) h
  | construct t x constructor arguments => exact congrArg (·.map Prod.fst) h
  | _ => simp [demand] at h

/-! ## forms -/

theorem safe_skeletons (hform : form.Walkable) (limit : Nat) :
    (withContext (·.paths form limit) >>= ofExcept).Safe := by
  refine (Safe.withContext fun c => .paths c form limit).bind fun found hreturns => ?_
  obtain ⟨c, hc, hok⟩ := hreturns
  have hfound : form.paths limit = found :=
    (hc.paths_fst form limit).symm.trans (Except.ok.inj hok)
  rw [← hfound, Form.paths_eq_walk, Form.toList_walk_entry hform]
  split
  · exact .pure _
  · exact .pathLimit _ _

/-- An inliner that is safe for every method that has a form. -/
def InlinesSafely (e : Engine) (inline : Inliner) : Prop :=
  ∀ offset callee, (∃ f, e.form? callee = some f) → (inline offset callee).Safe

/-- A step along an edge of the form. -/
def EdgeOf (form : Form) (step : PathStep) : Prop :=
  ∃ b edge, form.block? step.block = some b ∧ b.successors[step.edge]? = some edge

theorem relates_safe {inline : Inliner} (hinline : InlinesSafely e inline) (hform : e.Follows form)
    (site : Site) (stack : List Site) :
    Relates (fun _ x _ => Safe x) e e form site stack inline inline (EdgeOf form) where
  toCongruence := congruence_safe
  record := safe_record site stack
  limit := safe_checkLimit e form.method
  missing step err hstep hmissing := by
    obtain ⟨b, edge, hb, hedge⟩ := hstep
    simp [stepStatements, hb, hedge] at hmissing
  pointer p hp r type target hdemand := by
    obtain ⟨x, hx, href⟩ := (hform.supplies p hp).allocated type (allocated_of_demand hdemand)
    exact safe_pointerTerm hx href site _ target
  callee p hp r callee rest hdemand :=
    hinline _ callee ((hform.supplies p hp).callee callee (callee_of_demand hdemand))

/-- Rendering a form is safe. -/
theorem safe_renderForm {inline : Inliner} (hinline : InlinesSafely e inline) (site : Site)
    (stack : List Site) (hform : e.Follows form) :
    (renderForm e form site stack inline).Safe := by
  rw [renderForm, ← bind_assoc]
  refine (safe_skeletons hform.walkable e.options.maxPaths).bind fun skeletons hreturns => ?_
  refine (relates_safe hinline hform site stack).renderAll (fun s hs step hstep => ?_) 0
  -- what the context gives are the paths of the form, which follow its edges
  obtain ⟨c, hc, hok⟩ := hreturns
  have hexplore := (agrees_skeletons form e.options.maxPaths).value c skeletons hc hok _
    (Context.Le.refl _)
  rw [← hexplore] at hs
  exact (Form.trail_of_mem_explore hs).exists_edge hstep

/-- Inlining is safe. -/
theorem safe_inlineWith {render : Form → Site → List Site → Run (List PathState)}
    (hrender : ∀ m form site stack, e.form? m = some form → (render form site stack).Safe)
    (site : Site) (stack : List Site) : InlinesSafely e (inlineWith e render site stack) := by
  rintro offset callee ⟨form, hform⟩
  unfold inlineWith
  simp only [hform]
  split
  · exact .pure none
  · split
    · exact .pure none
    · refine (Safe.withContext fun c => .callSite c site offset callee).bind fun calleeSite _ => ?_
      exact (hrender callee form calleeSite _ hform).bind fun paths _ => .pure _

/-- **Rendering is safe** in a provisioned engine. -/
theorem safe_render (he : e.Provisioned) (depth : Nat) {m : MethodRef}
    (hform : e.form? m = some form) (site : Site) (stack : List Site) :
    (render e depth form site stack).Safe := by
  induction depth generalizing m form site stack with
  | zero =>
      have hinline : InlinesSafely e (inlineWith e (fun _ _ _ => Pure.pure []) site stack) :=
        safe_inlineWith (fun _ _ _ _ _ => .pure []) site stack
      exact safe_renderForm hinline site stack (he m form hform)
  | succ depth ih =>
      have hinline := safe_inlineWith (fun _ _ site stack hform => ih hform site stack) site stack
      exact safe_renderForm hinline site stack (he m form hform)

end Run

/-- **Coverage of a provisioned engine** succeeds, or there are more paths than allowed. -/
theorem Engine.cover_of_provisioned {e : Engine} (he : e.Provisioned) {m : MethodRef} {f : Form}
    (hf : e.form? m = some f) {c : Context} (hc : c.Used) :
    (∃ groups, (e.cover m c).1 = .ok groups) ∨
      ∃ method limit, (e.cover m c).1 = .error (.pathLimit method limit) := by
  have hroot : (c.rootSite m).2.Sound := (hc.steps (.single (.rootSite c m))).sound
  have hsafe := Run.safe_render he e.inliningDepth hf (c.rootSite m).1 [(c.rootSite m).1]
  unfold cover renderGroups
  simp only [hf]
  change (∃ groups, (((Run.render e e.inliningDepth f _ _).exec _).1.map _).map _ = .ok groups) ∨
    ∃ method limit, (((Run.render e e.inliningDepth f _ _).exec _).1.map _).map _ = .error _
  obtain ⟨states, hstates⟩ | ⟨method, limit, hlimit⟩ := hsafe.result _ hroot
  · rw [hstates]
    exact Or.inl ⟨_, rfl⟩
  · rw [hlimit]
    exact Or.inr ⟨method, limit, rfl⟩

end Pathwise
