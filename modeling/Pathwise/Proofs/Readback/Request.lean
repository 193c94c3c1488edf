import Mathlib.Data.List.Induction
import Pathwise.Proofs.Readback.Table

/-!
# Pathwise.Proofs.Readback.Request

Tables by their history. A request registers a sentence, declares a constant or binds
one; `ConstantTable.performAll` serves requests one after the other. Binding is a
program on a table that changes in place (`ConstantTable.binding`), so it could leave a
table half changed where it fails; it does not (`binding_eq`).

The value of a constant is that of the latest binding which succeeded. The type that
the constant had then need not be the one it has now: declaring it once more replaces
the type and leaves the value (`bound_by_latest`).
-/

namespace Pathwise

namespace ConstantTable

variable {requests : List Request}

/-! ## requests -/

/-- What can be asked of a table. -/
inductive Request where
  | register (sentence : Sentence)
  | declare (name : String) (type : TypeRef)
  | bind (name text : String)

/-- Binding, step by step. Where a step fails, the table keeps what the steps before it changed. -/
def binding (name text : String) : ExceptT Error (StateM ConstantTable) Value := do
  let t ← get
  let type ← ofExcept ((t.declared.find? name).elim (.error (.undeclared name)) .ok)
  let e ← ofExcept ((Sexp.parse text).mapError .malformed)
  let value ← ofExcept (t.readValue type e)
  set { t with values := t.values.set name value }
  return value

/-- The table after a request, whichever way it ends. -/
def perform (t : ConstantTable) : Request → ConstantTable
  | .register s => t.register s
  | .declare name type => t.declare name type
  | .bind name text => ((binding name text).run t).2

/-- The table after some requests. -/
def performAll (t : ConstantTable) (requests : List Request) : ConstantTable :=
  requests.foldl perform t

/-- A text gives a constant of a type a value. -/
def Binds (t : ConstantTable) (name text : String) (type : TypeRef) (v : Value) : Prop :=
  t.declared.find? name = some type ∧ ∃ e, Sexp.parse text = .ok e ∧ t.readValue type e = .ok v

variable {t : ConstantTable} {name text : String} {type : TypeRef} {v : Value}

theorem performAll_append (t : ConstantTable) (front back : List Request) :
    t.performAll (front ++ back) = (t.performAll front).performAll back := List.foldl_append

/-- What every one of some requests keeps holds after all of them. -/
theorem performAll_induction {P : ConstantTable → Prop}
    (hstep : ∀ q ∈ requests, ∀ t, P t → P (t.perform q)) (ht : P t) :
    P (t.performAll requests) := by
  induction requests generalizing t with
  | nil => exact ht
  | cons q requests ih =>
      rw [List.forall_mem_cons] at hstep
      exact ih hstep.2 (hstep.1 t ht)

/-! ## binding -/

theorem run_get_bind {ε σ α : Type} (f : σ → ExceptT ε (StateM σ) α) (s : σ) :
    (get >>= f).run s = (f s).run s := rfl

/-- **Binding is atomic**: the table it leaves is that of a success, or the one it found. -/
theorem binding_eq (t : ConstantTable) (name text : String) :
    (binding name text).run t =
      ((t.bind name text).map (·.1), ((t.bind name text).toOption.map (·.2)).getD t) := by
  unfold binding bind
  rw [run_get_bind]
  cases t.declared.find? name with
  | none => rfl
  | some type =>
      cases Sexp.parse text with
      | error cause => rfl
      | ok e =>
          dsimp only
          change (ofExcept (t.readValue type e) >>= _ :
            ExceptT Error (StateM ConstantTable) Value).run t = _
          cases t.readValue type e <;> rfl

theorem binding_of_binds (h : t.Binds name text type v) :
    (binding name text).run t = (.ok v, { t with values := t.values.set name v }) := by
  obtain ⟨hname, e, hparse, hread⟩ := h
  rw [binding_eq, bind_eq_ok_iff.2 ⟨type, e, hname, hparse, hread, rfl⟩]
  rfl

theorem binding_of_not_binds (h : ∀ type v, ¬t.Binds name text type v) :
    ∃ err, (binding name text).run t = (.error err, t) := by
  rw [binding_eq]
  cases hb : t.bind name text with
  | error err => exact ⟨err, rfl⟩
  | ok out =>
      obtain ⟨type, e, hname, hparse, hread, -⟩ := bind_eq_ok_iff.1 hb
      exact absurd ⟨hname, e, hparse, hread⟩ (h type out.1)

/-! ## what requests leave -/

/-- The type that a request declares a constant with. -/
def Request.declares? (name : String) : Request → Option TypeRef
  | .declare other type => if other = name then some type else none
  | _ => none

/-- The type that the last declaration of a constant among some requests gives it. -/
def lastType? (name : String) (requests : List Request) : Option TypeRef :=
  (requests.filterMap (Request.declares? name)).getLast?

theorem declared_perform (t : ConstantTable) (q : Request) (name : String) :
    (t.perform q).declared.find? name = (q.declares? name).or (t.declared.find? name) := by
  cases q with
  | register s => rfl
  | declare other type =>
      change (t.declared.set other type).find? name = _
      rw [Table.find?_set]
      by_cases h : other = name <;> simp [Request.declares?, h]
  | bind other text =>
      by_cases h : ∃ type v, t.Binds other text type v
      · obtain ⟨type, v, h⟩ := h
        simp [perform, binding_of_binds h, Request.declares?]
      · obtain ⟨err, heq⟩ := binding_of_not_binds fun type v hb => h ⟨type, v, hb⟩
        simp [perform, heq, Request.declares?]

/-- The type of a constant is that of its last declaration. -/
theorem declared_performAll (t : ConstantTable) (requests : List Request) (name : String) :
    (t.performAll requests).declared.find? name =
      (lastType? name requests).or (t.declared.find? name) := by
  induction requests using List.reverseRecOn with
  | nil => rfl
  | append_singleton requests q ih =>
      rw [performAll_append]
      change ((t.performAll requests).perform q).declared.find? name = _
      rw [declared_perform, ih, lastType?, lastType?, List.filterMap_append]
      cases hq : q.declares? name with
      | none => simp [hq]
      | some type => simp [hq]

/-- A request binds a constant to a value. -/
def Sets (t : ConstantTable) (name : String) (q : Request) (v : Value) : Prop :=
  ∃ text type, q = .bind name text ∧ t.Binds name text type v

theorem value?_of_sets {q : Request} (h : t.Sets name q v) :
    (t.perform q).value? name = some v := by
  obtain ⟨text, type, rfl, hb⟩ := h
  rw [perform, binding_of_binds hb, value?, Table.find?_set, if_pos rfl]

/-- A request that does not bind a constant leaves its value. -/
theorem value?_of_not_sets {q : Request} (h : ∀ v, ¬t.Sets name q v) :
    (t.perform q).value? name = t.value? name := by
  cases q with
  | register s => rfl
  | declare other type => rfl
  | bind other text =>
      by_cases hb : ∃ type v, t.Binds other text type v
      · obtain ⟨type, v, hb⟩ := hb
        have hname : other ≠ name := by
          rintro rfl
          exact h v ⟨text, type, rfl, hb⟩
        rw [perform, binding_of_binds hb, value?, Table.find?_set, if_neg hname, value?]
      · obtain ⟨err, heq⟩ := binding_of_not_binds fun type v h => hb ⟨type, v, h⟩
        rw [perform, heq]

/-- In the course of some requests none binds a constant. -/
def Idle (name : String) : ConstantTable → List Request → Prop
  | _, [] => True
  | t, q :: requests => (∀ v, ¬t.Sets name q v) ∧ Idle name (t.perform q) requests

theorem idle_append {front back : List Request} :
    Idle name t (front ++ back) ↔ Idle name t front ∧ Idle name (t.performAll front) back := by
  induction front generalizing t with
  | nil => simp [Idle, performAll]
  | cons q front ih =>
      rw [List.cons_append, Idle, Idle, ih, and_assoc]
      rfl

theorem value?_of_idle (h : Idle name t requests) :
    (t.performAll requests).value? name = t.value? name := by
  induction requests generalizing t with
  | nil => rfl
  | cons q requests ih => exact (ih h.2).trans (value?_of_not_sets h.1)

/-- **Where values come from**: a constant has the value of the latest binding that succeeded. -/
theorem value?_performAll_iff :
    (empty.performAll requests).value? name = some v ↔
      ∃ before text later type, requests = before ++ .bind name text :: later ∧
        (empty.performAll before).Binds name text type v ∧
        Idle name ((empty.performAll before).perform (.bind name text)) later := by
  constructor
  · intro h
    induction requests using List.reverseRecOn with
    | nil => simp [performAll, empty, value?] at h
    | append_singleton requests q ih =>
        rw [performAll_append] at h
        change ((empty.performAll requests).perform q).value? name = some v at h
        by_cases hq : ∃ w, (empty.performAll requests).Sets name q w
        · obtain ⟨w, hw⟩ := hq
          obtain rfl := Option.some.inj ((value?_of_sets hw).symm.trans h)
          obtain ⟨text, type, rfl, hb⟩ := hw
          exact ⟨requests, text, [], type, rfl, hb, trivial⟩
        · rw [value?_of_not_sets fun w hw => hq ⟨w, hw⟩] at h
          obtain ⟨before, text, later, type, rfl, hb, hidle⟩ := ih h
          rw [performAll_append] at hq
          refine ⟨before, text, later ++ [q], type, by simp, hb, idle_append.2 ⟨hidle, ?_, trivial⟩⟩
          exact fun w hw => hq ⟨w, hw⟩
  · rintro ⟨before, text, later, type, rfl, hb, hidle⟩
    rw [performAll_append]
    exact (value?_of_idle hidle).trans (value?_of_sets ⟨text, type, rfl, hb⟩)

/-- **Values age only by redeclaration**: the value of a constant was bound when the constant had
some type, and that is its type now if and only if no declaration has followed, or the last one that
did gave it this type again. -/
theorem bound_by_latest {requests : List Request}
    (h : (empty.performAll requests).value? name = some v) :
    ∃ before text later type, requests = before ++ .bind name text :: later ∧
      (empty.performAll before).Binds name text type v ∧
      Idle name ((empty.performAll before).perform (.bind name text)) later ∧
      ((empty.performAll requests).declared.find? name = some type ↔
        ∀ u ∈ lastType? name later, u = type) := by
  obtain ⟨before, text, later, type, rfl, hb, hidle⟩ := value?_performAll_iff.1 h
  refine ⟨before, text, later, type, rfl, hb, hidle, ?_⟩
  have hnow : (empty.performAll (before ++ .bind name text :: later)).declared.find? name =
      (lastType? name later).or (some type) := by
    rw [performAll_append]
    change (((empty.performAll before).perform _).performAll later).declared.find? name = _
    rw [declared_performAll, declared_perform, hb.1]
    rfl
  rw [hnow]
  cases lastType? name later <;> simp

end ConstantTable

namespace Sample.Redeclared

open ConstantTable

/-- A number that is declared a truth value later. -/
def requests : List Request := [.declare "n" .int32, .bind "n" "5", .declare "n" .bool]

theorem value?_requests : (empty.performAll requests).value? "n" = some (.int 5) := rfl

/-- The number stays, and no text was read at the type that the constant has now. -/
theorem value_outlives_type : (empty.performAll requests).value? "n" = some (.int 5) ∧
    (empty.performAll requests).declared.find? "n" = some .bool ∧
    ∀ before text later v, requests = before ++ .bind "n" text :: later →
      ¬(empty.performAll before).Binds "n" text .bool v := by
  refine ⟨value?_requests, rfl, fun before text later v hsplit hb => ?_⟩
  have hone : before = [.declare "n" .int32] := by
    obtain _ | ⟨q, _ | ⟨q', _ | ⟨q'', before⟩⟩⟩ := before <;> simp_all [requests]
  subst hone
  exact absurd hb.1 (by decide)

/-- The binding is found, and a declaration has followed it. -/
theorem bound_requests : (empty.performAll requests).value? "n" = some (.int 5) ∧
    ∃ before text later type, requests = before ++ .bind "n" text :: later ∧
      (empty.performAll before).Binds "n" text type (.int 5) ∧
      Idle "n" ((empty.performAll before).perform (.bind "n" text)) later ∧
      ((empty.performAll requests).declared.find? "n" = some type ↔
        ∀ u ∈ lastType? "n" later, u = type) :=
  ⟨value?_requests, bound_by_latest value?_requests⟩

end Sample.Redeclared

end Pathwise
