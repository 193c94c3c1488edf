import Pathwise.Proofs.Renumbering.Correspondence

/-!
# Pathwise.Proofs.Renumbering.Origin

Where values come from, without the numbers of flows. A flow is only followed if
it is the latest into its target, so it has been followed before exactly if its
target has been passed before (`Flows.origin_eq_chase`). Flows with corresponding
sources and targets therefore lead to corresponding origins
(`Flows.texts_origin`).
-/

namespace Pathwise

open List (Forall₂)

namespace Flows

/-- Source and target of each flow. -/
def links (t : Flows) : List (String × String) := t.recorded.map fun f => (f.source, f.target)

/-- Follow links backwards until there is none, or its target has been passed before. -/
def chase (links : List (String × String)) :
    (fuel : Nat) → (symbol : String) → (passed : List String) → String
  | 0, symbol, _ => symbol
  | fuel + 1, symbol, passed =>
    match links.find? (·.2 = symbol) with
    | none => symbol
    | some link => if symbol ∈ passed then symbol else chase links fuel link.1 (symbol :: passed)

/-- Flows with the same number are the same. -/
def Numbered (t : Flows) : Prop := ∀ f ∈ t.recorded, ∀ g ∈ t.recorded, f.id = g.id → f = g

variable {t : Flows} {symbol : String} {f : Flow}

theorem find?_links (t : Flows) (symbol : String) :
    t.links.find? (·.2 = symbol) = (t.latest? symbol).map fun f => (f.source, f.target) := by
  unfold links latest?
  rw [List.find?_map]
  rfl

theorem of_latest? (h : t.latest? symbol = some f) : f ∈ t.recorded ∧ f.target = symbol :=
  ⟨List.mem_of_find?_eq_some h, by simpa using List.find?_some h⟩

/-- An origin is the end of an ancestry. -/
theorem origin_eq (t : Flows) (symbol : String) :
    t.origin symbol = ((t.ancestry symbol).getLast?.map Flow.source).getD symbol := by
  unfold origin
  cases (t.ancestry symbol).getLast? <;> rfl

/-- A flow has been followed before exactly if its target has been passed. -/
theorem followed_iff (ht : t.Numbered) {followed : List Flow}
    (hfollowed : ∀ g ∈ followed, t.latest? g.target = some g) (hf : t.latest? symbol = some f) :
    followed.any (·.id = f.id) ↔ symbol ∈ followed.map (·.target) := by
  obtain ⟨hmem, htarget⟩ := of_latest? hf
  rw [List.any_eq_true, List.mem_map]
  constructor
  · rintro ⟨g, hg, hid⟩
    have heq := ht g (of_latest? (hfollowed g hg)).1 f hmem (by simpa using hid)
    exact ⟨g, hg, by rw [heq, htarget]⟩
  · rintro ⟨g, hg, rfl⟩
    have heq := (hfollowed g hg).symm.trans hf
    exact ⟨g, hg, by simp [Option.some.inj heq]⟩

/-- The source of the last flow that is followed. -/
theorem trace_eq_chase (ht : t.Numbered) (fuel : Nat) (symbol : String) (followed : List Flow)
    (hfollowed : ∀ g ∈ followed, t.latest? g.target = some g) :
    ((t.trace fuel symbol followed).getLast?.map Flow.source).getD symbol =
      chase t.links fuel symbol (followed.map (·.target)) := by
  induction fuel generalizing symbol followed with
  | zero => rfl
  | succ fuel ih =>
      unfold trace chase
      rw [find?_links]
      cases hf : t.latest? symbol with
      | none => rfl
      | some f =>
          simp only [Option.map_some, followed_iff ht hfollowed hf]
          split
          · rfl
          · have hlatest : ∀ g ∈ f :: followed, t.latest? g.target = some g := by
              rw [List.forall_mem_cons, (of_latest? hf).2]
              exact ⟨hf, hfollowed⟩
            have hnext := ih f.source (f :: followed) hlatest
            rw [List.map_cons, (of_latest? hf).2] at hnext
            rw [← hnext, List.getLast?_cons]
            cases (t.trace fuel f.source (f :: followed)).getLast? <;> rfl

/-- **Origins** depend on the sources and targets of flows only. -/
theorem origin_eq_chase (ht : t.Numbered) (symbol : String) :
    t.origin symbol = chase t.links (t.recorded.length + 1) symbol [] := by
  rw [origin_eq]
  exact trace_eq_chase ht _ symbol [] (by simp)

end Flows

/-! ## corresponding flows -/

/-- Flows between corresponding values. -/
structure Flow.Corresponds (κ : Correspondence) (e : Engine) (f f' : Flow) : Prop where
  source : κ.Texts e f.source f'.source
  target : κ.Slots e f.target f'.target

theorem forall₂_find? {α β : Type} {R : α → β → Prop} {p : α → Bool} {q : β → Bool} {l : List α}
    {l' : List β} (h : Forall₂ R l l') (hp : ∀ a b, R a b → p a = q b) :
    Option.Rel R (l.find? p) (l'.find? q) := by
  induction h with
  | nil => exact .none
  | @cons a b l l' hab _ ih =>
      rw [List.find?_cons, List.find?_cons, ← hp a b hab]
      cases p a with
      | true => exact .some hab
      | false => exact ih

namespace Flows

variable {κ : Correspondence} {e : Engine}

/-- Chasing gives corresponding texts. -/
theorem texts_chase (hκ : κ.OneToOne) (he : e.Distinct) {links links' : List (String × String)}
    (hlinks : Forall₂ (fun l l' => κ.Texts e l.1 l'.1 ∧ κ.Slots e l.2 l'.2) links links')
    (fuel : Nat) {x y : String} (hx : κ.Texts e x y) {passed passed' : List String}
    (hpassed : Forall₂ (κ.Slots e) passed passed') :
    κ.Texts e (chase links fuel x passed) (chase links' fuel y passed') := by
  induction fuel generalizing x y passed passed' with
  | zero => exact hx
  | succ fuel ih =>
      have hslot : ∀ {u v}, κ.Slots e u v → (u = x ↔ v = y) := by
        intro u v huv
        obtain ⟨a, b, hab, rfl, rfl⟩ := hx
        rw [eq_comm, hab.render_eq_iff hκ he huv, eq_comm]
      have hmem : x ∈ passed ↔ y ∈ passed' := by
        induction hpassed with
        | nil => simp
        | cons huv _ ih => rw [List.mem_cons, List.mem_cons, ih, eq_comm, hslot huv, eq_comm]
      have hfind := forall₂_find? (p := fun l => l.2 = x) (q := fun l => l.2 = y) hlinks
        fun l l' hl => decide_eq_decide.2 (hslot hl.2)
      unfold chase
      generalize hlink : links.find? (·.2 = x) = found at hfind ⊢
      generalize hlink' : links'.find? (·.2 = y) = found' at hfind ⊢
      cases hfind with
      | none => exact hx
      | @some link link' hl =>
          have hx' : link.2 = x := by simpa using List.find?_some hlink
          have hy' : link'.2 = y := by simpa using List.find?_some hlink'
          simp only [hmem]
          split
          · exact hx
          · refine ih hl.1 (.cons ?_ hpassed)
            rw [← hx', ← hy']
            exact hl.2

/-- **Origins correspond** if flows do. -/
theorem texts_origin (hκ : κ.OneToOne) (he : e.Distinct) {t t' : Flows} (ht : t.Numbered)
    (ht' : t'.Numbered) (h : Forall₂ (Flow.Corresponds κ e) t.recorded t'.recorded) {x y : String}
    (hx : κ.Texts e x y) : κ.Texts e (t.origin x) (t'.origin y) := by
  have hlinks : Forall₂ (fun l l' => κ.Texts e l.1 l'.1 ∧ κ.Slots e l.2 l'.2) t.links t'.links := by
    unfold links
    rw [List.forall₂_map_left_iff, List.forall₂_map_right_iff]
    exact h.imp fun f f' hf => ⟨hf.source, hf.target⟩
  rw [origin_eq_chase ht, origin_eq_chase ht', h.length_eq]
  exact texts_chase hκ he hlinks _ hx .nil

end Flows

end Pathwise
