import Pathwise.Proofs.Resolution.Closure

/-!
# Pathwise.Proofs.Resolution.Work

A request without handlers as a machine. `Work` holds both work-lists, that of the
pending references and that of the types being staged. One turn takes one entry from
one of them, and notes what it sets out to build. Nothing bounds the number of turns.

Nothing is noted twice, and nothing that is stored is noted at all. This is an
invariant of one turn (`Work.Once.turn`) and so of any number of them
(`Work.Once.after`).
-/

namespace Pathwise

/-- A method that is being encoded. -/
structure Encoding where
  method : MethodRef
  graph : MethodGraph
  /-- The types that the graph mentions and that are not staged yet. -/
  mentioned : List TypeRef

/-- A request at work. -/
structure Work where
  /-- The types to stage, the next one first. -/
  types : List TypeRef := []
  encoding : Option Encoding := none
  /-- The pending references, the next one first. -/
  queue : List PendingRef := []
  seen : List PendingRef := []
  staging : Staging := .empty
  /-- Everything that the request has set out to build a sentence or form for, the latest first. -/
  built : List PendingRef := []
  failure : Option ResolutionError := none

namespace Work

variable {t : TypeRef}

/-- What a request asks for is the work to begin with. -/
def start : Engine.Request → Work
  | .type t => { types := [t] }
  | .method m _ _ => { queue := [.method m] }

/-- Stage a type and queue what its sentence depends on. -/
def stage (e : Engine) (w : Work) (t : TypeRef) (rest : List TypeRef) : Work :=
  if w.staging.hasType e t then { w with types := rest }
  else
    let built := .type t :: w.built
    match e.constructSentence [] t with
    | .error err => { w with types := rest, built, failure := some err }
    | .ok x =>
      { w with
        types := rest ++ x.1.dependencies, built, staging := w.staging.addSentence t x.1 x.2 }

/-- Stage the form of a method and queue what it leaves to resolve. -/
def addForm (e : Engine) (w : Work) (m : MethodRef) (f : Form) : Work :=
  { w with
    queue := w.queue ++ e.pendingOf w.staging f
    built := .method m :: w.built
    staging := w.staging.addForm m f false }

/-- Go on to the next type that a graph mentions; after the last one encode the graph. -/
def encode (e : Engine) (w : Work) (c : Encoding) : Work :=
  match c.mentioned with
  | t :: mentioned => { w with types := [t], encoding := some { c with mentioned } }
  | [] =>
    let w := { w with encoding := none }
    match Form.ofGraph (w.staging.lookup e) c.graph with
    | .error err => { w with built := .method c.method :: w.built, failure := some (.lowering err) }
    | .ok f => w.addForm e c.method f

/-- Begin with a reference that was not seen before. -/
def begin (e : Engine) (w : Work) : PendingRef → Work
  | .type t => { w with types := [t] }
  | .method m =>
    if e.forms.contains m then w
    else if e.options.leavesOut m then w.addForm e m (.empty m)
    else match e.program.methodGraph? m with
      | none => { w with built := .method m :: w.built, failure := some (.unresolvedMethod m) }
      | some graph => { w with encoding := some ⟨m, graph, graph.mentionedTypes⟩ }

/-- Take the next pending reference. -/
def take (e : Engine) (w : Work) (next : PendingRef) (rest : List PendingRef) : Work :=
  if next ∈ w.seen then { w with queue := rest }
  else begin e { w with queue := rest, seen := next :: w.seen } next

/-- One turn. Types are staged first, then the method that is being encoded goes on, and only then
comes the next pending reference. There is no turn after a failure, or if nothing is left. -/
def turn (e : Engine) (w : Work) : Option Work :=
  if w.failure.isSome then none
  else match w.types, w.encoding, w.queue with
    | t :: rest, _, _ => some (w.stage e t rest)
    | [], some c, _ => some (w.encode e c)
    | [], none, next :: rest => some (w.take e next rest)
    | [], none, [] => none

/-- The work after a number of turns, or after the last one. -/
def after (e : Engine) : Nat → Work → Work
  | 0, w => w
  | n + 1, w => ((w.turn e).map (after e n)).getD w

/-- Both work-lists are empty, and no method is being encoded. -/
structure IsDone (w : Work) : Prop where
  types : w.types = []
  encoding : w.encoding = none
  queue : w.queue = []

/-- How work that has no further turn ended. -/
def outcome (w : Work) : Except ResolutionError Unit :=
  match w.failure with
  | some err => .error err
  | none => .ok ()

/-! ## one turn -/

variable {e : Engine} {w w' : Work}

section

variable (hw : w.failure = none)
include hw

theorem turn_of_types {t : TypeRef} {rest : List TypeRef} (h : w.types = t :: rest) :
    w.turn e = some (w.stage e t rest) := by
  simp [turn, hw, h]

theorem turn_of_encoding {c : Encoding} (htypes : w.types = []) (h : w.encoding = some c) :
    w.turn e = some (w.encode e c) := by
  simp [turn, hw, htypes, h]

theorem turn_of_queue {next : PendingRef} {rest : List PendingRef} (htypes : w.types = [])
    (hencoding : w.encoding = none) (h : w.queue = next :: rest) :
    w.turn e = some (w.take e next rest) := by
  simp [turn, hw, htypes, hencoding, h]

end

theorem turn_of_failure {err : ResolutionError} (h : w.failure = some err) : w.turn e = none := by
  simp [turn, h]

theorem IsDone.turn (h : w.IsDone) : w.turn e = none := by
  simp [Work.turn, h.types, h.encoding, h.queue]

/-- **What a turn can do.** -/
theorem turn_cases (h : w.turn e = some w') : w.failure = none ∧
    ((∃ t rest, w' = w.stage e t rest) ∨ (∃ c, w.encoding = some c ∧ w' = w.encode e c) ∨
      w.encoding = none ∧ ∃ next rest, w' = w.take e next rest) := by
  cases hw : w.failure with
  | some err =>
      rw [turn_of_failure hw] at h
      contradiction
  | none =>
      refine ⟨rfl, ?_⟩
      cases htypes : w.types with
      | cons t rest =>
          rw [turn_of_types hw htypes] at h
          exact Or.inl ⟨t, rest, (Option.some.inj h).symm⟩
      | nil =>
          cases hencoding : w.encoding with
          | some c =>
              rw [turn_of_encoding hw htypes hencoding] at h
              exact Or.inr (Or.inl ⟨c, rfl, (Option.some.inj h).symm⟩)
          | none =>
              cases hqueue : w.queue with
              | cons next rest =>
                  rw [turn_of_queue hw htypes hencoding hqueue] at h
                  exact Or.inr (Or.inr ⟨rfl, next, rest, (Option.some.inj h).symm⟩)
              | nil =>
                  rw [IsDone.turn ⟨htypes, hencoding, hqueue⟩] at h
                  contradiction

theorem stage_of_known (h : w.staging.hasType e t = true) (rest : List TypeRef) :
    w.stage e t rest = { w with types := rest } :=
  if_pos h

theorem stage_of_error {err : ResolutionError} (h : w.staging.hasType e t = false)
    (hx : e.constructSentence [] t = .error err) (rest : List TypeRef) :
    w.stage e t rest =
      { w with types := rest, built := .type t :: w.built, failure := some err } := by
  simp [stage, h, hx]

theorem stage_of_ok {x : Sentence × Bool} (h : w.staging.hasType e t = false)
    (hx : e.constructSentence [] t = .ok x) (rest : List TypeRef) :
    w.stage e t rest =
      { w with
        types := rest ++ x.1.dependencies
        built := .type t :: w.built
        staging := w.staging.addSentence t x.1 x.2 } := by
  simp [stage, h, hx]

/-! ## nothing is built twice -/

/-- Everything noted was noted once and was not stored before. Unless there was a failure it is what
is staged. -/
structure Once (e : Engine) (w : Work) : Prop where
  nodup : w.built.Nodup
  unstored : ∀ r ∈ w.built, ¬e.Stores r
  settled : w.failure = none → ∀ r, e.IsSettled w.staging r ↔ e.Stores r ∨ r ∈ w.built
  ownTypes : Engine.OwnTypes w.staging
  seen : ∀ m, .method m ∈ w.built → .method m ∈ w.seen
  encoding : ∀ c, w.encoding = some c →
    .method c.method ∈ w.seen ∧ .method c.method ∉ w.built ∧ ¬e.Stores (.method c.method)

theorem once_start (e : Engine) (q : Engine.Request) : Once e (start q) := by
  have hsettled : ∀ r, e.IsSettled .empty r ↔ e.Stores r ∨ r ∈ [] := by
    intro r
    cases r <;>
      simp [Engine.IsSettled, Engine.Stores, Staging.hasType, Staging.empty, Table.contains,
        Table.find?_empty]
  cases q <;> exact
    { nodup := List.nodup_nil
      unstored := fun _ h => by contradiction
      settled := fun _ => hsettled
      ownTypes := Engine.ownTypes_empty
      seen := fun _ h => by contradiction
      encoding := fun _ h => by contradiction }

/-- One more reference is built, or the request fails in building it. -/
theorem Once.build {r : PendingRef} (h : Once e w) (staging : Staging)
    (failure : Option ResolutionError) (hnew : r ∉ w.built) (hunstored : ¬e.Stores r)
    (hseen : ∀ m, r = .method m → r ∈ w.seen)
    (hencoding : ∀ c, w.encoding = some c → r ≠ .method c.method)
    (hown : Engine.OwnTypes staging)
    (hsettled : failure = none → w.failure = none ∧
      ∀ r', e.IsSettled staging r' ↔ r' = r ∨ e.IsSettled w.staging r') :
    Once e { w with built := r :: w.built, staging, failure } where
  nodup := List.nodup_cons.2 ⟨hnew, h.nodup⟩
  unstored := List.forall_mem_cons.2 ⟨hunstored, h.unstored⟩
  settled hfailure r' := by
    obtain ⟨hw, hsettled⟩ := hsettled hfailure
    rw [hsettled, h.settled hw, List.mem_cons, or_left_comm]
  ownTypes := hown
  seen m hm := by
    cases List.mem_cons.1 hm with
    | inl heq => exact heq ▸ hseen m heq.symm
    | inr hmem => exact h.seen m hmem
  encoding c hc := by
    obtain ⟨hcseen, hcnew, hcunstored⟩ := h.encoding c hc
    refine ⟨hcseen, ?_, hcunstored⟩
    rw [List.mem_cons, not_or]
    exact ⟨(hencoding c hc).symm, hcnew⟩

theorem Once.stage (h : Once e w) (hw : w.failure = none) (t : TypeRef) (rest : List TypeRef) :
    Once e (w.stage e t rest) := by
  cases ht : w.staging.hasType e t with
  | true =>
      rw [stage_of_known ht]
      exact { h with }
  | false =>
      have hsettled : ¬(e.Stores (.type t) ∨ .type t ∈ w.built) := by
        rw [← h.settled hw, Engine.IsSettled, ht]
        exact Bool.false_ne_true
      obtain ⟨hunstored, hnew⟩ := not_or.1 hsettled
      have hbuild (staging : Staging) (failure : Option ResolutionError) :=
        h.build staging failure hnew hunstored (fun m heq => by contradiction)
          (fun c _ heq => by contradiction)
      cases hx : e.constructSentence [] t with
      | error err =>
          rw [stage_of_error ht hx]
          exact { hbuild w.staging (some err) h.ownTypes (fun hfailure => by contradiction) with }
      | ok x =>
          rw [stage_of_ok ht hx]
          have hextends : e.Extends [] w.staging (w.staging.addSentence t x.1 x.2) :=
            .addSentence hx
          refine { hbuild _ w.failure (hextends.ownTypes (by simp) h.ownTypes)
            (fun _ => ⟨hw, fun r => ?_⟩) with }
          cases r with
          | type u => simp [Engine.IsSettled, Engine.hasType_addSentence, @eq_comm _ t]
          | method m => simp [Engine.IsSettled, hextends.forms]

section

variable {m : MethodRef} (h : Once e w) (hseen : .method m ∈ w.seen) (hnew : .method m ∉ w.built)
  (hunstored : ¬e.Stores (.method m)) (hencoding : w.encoding = none)
include h hseen hnew hunstored hencoding

theorem Once.addForm (hw : w.failure = none) (f : Form) : Once e (w.addForm e m f) := by
  have hsettled : ∀ r, e.IsSettled (w.staging.addForm m f false) r ↔
      r = .method m ∨ e.IsSettled w.staging r := by
    intro r
    cases r with
    | type t => simp [Engine.IsSettled, Staging.hasType, Staging.addForm]
    | method m' =>
        simp [Engine.IsSettled, Engine.contains_addForm, @eq_comm _ m, or_left_comm]
  have hbuild := h.build (w.staging.addForm m f false) w.failure hnew hunstored (fun _ _ => hseen)
    (by simp [hencoding]) h.ownTypes (fun _ => ⟨hw, hsettled⟩)
  exact { hbuild with }

theorem Once.failAt (err : ResolutionError) :
    Once e { w with built := .method m :: w.built, failure := some err } :=
  h.build w.staging (some err) hnew hunstored (fun _ _ => hseen) (by simp [hencoding]) h.ownTypes
    (fun hfailure => by contradiction)

end

theorem Once.encode {c : Encoding} (h : Once e w) (hw : w.failure = none)
    (hc : w.encoding = some c) : Once e (w.encode e c) := by
  obtain ⟨hseen, hnew, hunstored⟩ := h.encoding c hc
  unfold Work.encode
  cases c.mentioned with
  | cons t mentioned =>
      refine { h with encoding := fun c' hc' => ?_ }
      rw [← Option.some.inj hc']
      exact ⟨hseen, hnew, hunstored⟩
  | nil =>
      have hrest : Once e { w with encoding := none } :=
        { h with encoding := fun c hc => by contradiction }
      simp only
      cases Form.ofGraph (w.staging.lookup e) c.graph with
      | error err => exact hrest.failAt hseen hnew hunstored rfl (.lowering err)
      | ok f => exact hrest.addForm hseen hnew hunstored rfl hw f

theorem Once.begin {next : PendingRef} (h : Once e w) (hw : w.failure = none)
    (hencoding : w.encoding = none) (hseen : next ∈ w.seen)
    (hnew : ∀ m, next = .method m → .method m ∉ w.built) : Once e (begin e w next) := by
  cases next with
  | type t => exact { h with }
  | method m =>
      unfold Work.begin
      simp only
      split
      · exact h
      · next hstored =>
          split
          · exact h.addForm hseen (hnew m rfl) hstored hencoding hw (.empty m)
          · cases e.program.methodGraph? m with
            | none => exact h.failAt hseen (hnew m rfl) hstored hencoding (.unresolvedMethod m)
            | some graph =>
                refine { h with encoding := fun c hc => ?_ }
                rw [← Option.some.inj hc]
                exact ⟨hseen, hnew m rfl, hstored⟩

theorem Once.take (h : Once e w) (hw : w.failure = none) (hencoding : w.encoding = none)
    (next : PendingRef) (rest : List PendingRef) : Once e (w.take e next rest) := by
  unfold Work.take
  split
  · exact { h with }
  · next hunseen =>
      have hsee : Once e { w with queue := rest, seen := next :: w.seen } :=
        { h with
          seen := fun m hm => List.mem_cons_of_mem _ (h.seen m hm)
          encoding := fun c hc =>
            ⟨List.mem_cons_of_mem _ (h.encoding c hc).1, (h.encoding c hc).2⟩ }
      refine hsee.begin hw hencoding List.mem_cons_self fun m heq hm => hunseen ?_
      rw [heq]
      exact h.seen m hm

/-- **One turn** builds at most one reference, and none that is noted or stored. -/
theorem Once.turn (h : Once e w) (hturn : w.turn e = some w') : Once e w' := by
  obtain ⟨hw, ⟨t, rest, rfl⟩ | ⟨c, hc, rfl⟩ | ⟨hencoding, next, rest, rfl⟩⟩ := turn_cases hturn
  · exact h.stage hw t rest
  · exact h.encode hw hc
  · exact h.take hw hencoding next rest

theorem Once.after (h : Once e w) (n : Nat) : Once e (after e n w) := by
  induction n generalizing w with
  | zero => exact h
  | succ n ih =>
      unfold Work.after
      cases hturn : w.turn e with
      | none => exact h
      | some w' => exact ih (h.turn hturn)

end Work

end Pathwise
