import Pathwise.Proofs.History
import Pathwise.Proofs.Symbol

/-!
# Pathwise.Proofs.Freshness

Sites and pointers over the whole life of a context. `Context.log` serves requests
one after the other, from all runs in any order, and `Context.Fresh` says what the
answers have in common: a new run gets a site of its own, a call keeps its site and
shares it with no other call, and an allocation keeps its pointer and shares it with
no other one of its type (`Context.fresh_log`). The constants of two invocations
therefore never clash.

Calls are numbered for each callee and each number of a run, so runs of different
methods share counters. Three books tie the counters and the tables of answers to the
requests so far: `RunBook`, `CallBook` and `PointerBook`. A request changes one of them
at most.
-/

namespace Pathwise

/-! ## constants of sites -/

theorem underscore_not_mem_toDigits (n : Nat) : '_' ∉ Nat.toDigits 10 n := by
  intro h
  exact absurd (Nat.isDigit_of_mem_toDigits (by decide) (by decide) h) (by decide)

/-- Both numbers can be told from a suffix. -/
theorem Site.suffix_inj {s s' : Site} (h : s.suffix = s'.suffix) :
    s.sequence = s'.sequence ∧ s.callOrder = s'.callOrder := by
  have hchars : Nat.toDigits 10 s.sequence ++ '_' :: Nat.toDigits 10 s.callOrder =
      Nat.toDigits 10 s'.sequence ++ '_' :: Nat.toDigits 10 s'.callOrder := by
    have htext := congrArg String.toList h
    simp [Site.suffix] at htext
    exact htext
  obtain ⟨hsequence, -, horder⟩ := (List.append_cons_inj_of_notMem
    (underscore_not_mem_toDigits _) (underscore_not_mem_toDigits _)).1 hchars
  exact ⟨toDigits_inj hsequence, toDigits_inj horder⟩

/-- Constants of different sites differ, unless the sites are of different methods with one
symbol. -/
theorem Renaming.symbol_ne {s s' : Site} (hne : s ≠ s')
    (hmethod : s.method = s'.method ∨ s.method.symbol ≠ s'.method.symbol) {x x' : Variable}
    (hx : x.slot.isLocal) (hx' : x'.slot.isLocal) {f f' : Form}
    (hf : s.method.variableSymbol x ∈ f.locals) (hf' : s'.method.variableSymbol x' ∈ f'.locals) :
    (Renaming.of f s).symbol (s.method.variableSymbol x) ≠
      (Renaming.of f' s').symbol (s'.method.variableSymbol x') := by
  have hrenamed : (Renaming.of f s).symbol (s.method.variableSymbol x) =
      s.method.variableSymbol x ++ "!" ++ s.suffix := if_pos hf
  have hrenamed' : (Renaming.of f' s').symbol (s'.method.variableSymbol x') =
      s'.method.variableSymbol x' ++ "!" ++ s'.suffix := if_pos hf'
  rw [hrenamed, hrenamed', MethodRef.variableSymbol_eq, MethodRef.variableSymbol_eq]
  intro h
  obtain ⟨hsymbol, hslot⟩ := MethodRef.slotSymbol_inj hx hx' h
  obtain hsame | hother := hmethod
  · rw [hsame, hslot, String.append_right_inj] at h
    obtain ⟨hsequence, horder⟩ := Site.suffix_inj h
    obtain ⟨method, sequence, callOrder⟩ := s
    obtain ⟨method', sequence', callOrder'⟩ := s'
    exact hne (by simp_all)
  · exact hother hsymbol

namespace Context

variable {c : Context} {k : CallKey}

/-! ## requests and answers -/

/-- What a run asks a context for. -/
inductive Query where
  | root (method : MethodRef)
  | call (key : CallKey)
  | pointer (site : Site) (offset : Nat) (type : TypeRef)

/-- A request with its answer. The place of an allocation is its site and its offset. -/
inductive Event where
  | root (method : MethodRef) (site : Site)
  | call (key : CallKey) (site : Site)
  | pointer (place : Site × Nat) (type : TypeRef) (number : Nat)

/-- Answer one request. -/
def serve (c : Context) : Query → Event × Context
  | .root m => (.root m (c.rootSite m).1, (c.rootSite m).2)
  | .call k =>
    (.call k (c.callSite k.parent k.offset k.callee).1, (c.callSite k.parent k.offset k.callee).2)
  | .pointer site offset t =>
    (.pointer (site, offset) t (c.pointer site offset t).1, (c.pointer site offset t).2)

/-- Answer requests one after the other. -/
def log (c : Context) : List Query → List Event
  | [] => []
  | q :: queries => (c.serve q).1 :: (c.serve q).2.log queries

/-- The site of a new run. -/
def Event.root? : Event → Option Site
  | .root _ s => some s
  | _ => none

/-- The site that a request was answered with. -/
def Event.site? : Event → Option Site
  | .root _ s | .call _ s => some s
  | .pointer .. => none

/-- The type with which a pointer was asked for. -/
def Event.typeAt? (place : Site × Nat) : Event → Option TypeRef
  | .pointer p t _ => if p = place then some t else none
  | _ => none

/-- The type with which the pointer of a place was asked for first. -/
def firstType? (place : Site × Nat) (events : List Event) : Option TypeRef :=
  events.findSome? (Event.typeAt? place)

/-- No answer is given twice where it should not be. -/
structure Fresh (events : List Event) : Prop where
  /-- Every run has a site of its own, -/
  roots : (events.filterMap Event.root?).Nodup
  /-- which is not the site of any call. -/
  rootsApart : ∀ m s k t, .root m s ∈ events → .call k t ∈ events → s ≠ t
  /-- The same call has the same site, and different calls have different ones. -/
  calls : ∀ k k' s s', .call k s ∈ events → .call k' s' ∈ events → (s = s' ↔ k = k')
  /-- Pointers are positive. The same place has the same one, and different places have different
  ones if they were first asked for with one type. -/
  pointers : ∀ p p' t t' n n', .pointer p t n ∈ events → .pointer p' t' n' ∈ events →
    0 < n ∧ (p = p' → n = n') ∧
      (p ≠ p' → firstType? p events = firstType? p' events → n ≠ n')
  /-- Constants of different sites differ. -/
  constants : ∀ s s', s ∈ events.filterMap Event.site? → s' ∈ events.filterMap Event.site? →
    s ≠ s' → s.method = s'.method ∨ s.method.symbol ≠ s'.method.symbol →
    ∀ (x x' : Variable) (f f' : Form), x.slot.isLocal → x'.slot.isLocal →
      s.method.variableSymbol x ∈ f.locals → s'.method.variableSymbol x' ∈ f'.locals →
      (Renaming.of f s).symbol (s.method.variableSymbol x) ≠
        (Renaming.of f' s').symbol (s'.method.variableSymbol x')

/-! ## counters -/

/-- How many runs of a method there were. -/
def runs (c : Context) (m : MethodRef) : Nat := (c.sequences.find? m).getD 0

/-- How many calls of a method there were in the runs with a number. -/
def calls (c : Context) (callee : MethodRef) (sequence : Nat) : Nat :=
  (c.callOrders.find? (callee, sequence)).getD 0

/-- How many objects of a type there were. -/
def objects (c : Context) (t : TypeRef) : Nat := (c.pointers.find? t).getD 0

/-- A call without a site gets the next number of its callee. -/
theorem callSite_of_none (h : c.sites.find? k = none) :
    c.callSite k.parent k.offset k.callee =
      (⟨k.callee, k.parent.sequence, c.calls k.callee k.parent.sequence + 1⟩, { c with
        callOrders := c.callOrders.set (k.callee, k.parent.sequence)
          (c.calls k.callee k.parent.sequence + 1)
        sites := c.sites.set k
          ⟨k.callee, k.parent.sequence, c.calls k.callee k.parent.sequence + 1⟩ }) := by
  unfold callSite calls
  simp only [h]

theorem callSite_of_some {s : Site} (h : c.sites.find? k = some s) :
    c.callSite k.parent k.offset k.callee = (s, c) := by
  unfold callSite
  simp only [h]

/-- A place without a pointer gets the next number of the type. -/
theorem pointer_of_none {site : Site} {offset : Nat} (t : TypeRef)
    (h : c.allocations.find? (site, offset) = none) :
    c.pointer site offset t = (c.objects t + 1, { c with
      pointers := c.pointers.set t (c.objects t + 1)
      allocations := c.allocations.set (site, offset) (c.objects t + 1) }) := by
  unfold pointer objects
  simp only [h]

theorem pointer_of_some {site : Site} {offset n : Nat} (t : TypeRef)
    (h : c.allocations.find? (site, offset) = some n) : c.pointer site offset t = (n, c) := by
  unfold pointer
  simp only [h]

/-! ## books

A book says what the requests of one kind have left in a context. No number is above its counter. -/

/-- The sites of runs. -/
structure RunBook (c : Context) (events : List Event) : Prop where
  nodup : (events.filterMap Event.root?).Nodup
  root : ∀ m s, .root m s ∈ events → s.method = m ∧ s.callOrder = 0 ∧ s.sequence < c.runs m

/-- The sites of calls. -/
structure CallBook (c : Context) (events : List Event) : Prop where
  call : ∀ k s, .call k s ∈ events → c.sites.find? k = some s
  site : ∀ k s, c.sites.find? k = some s → s.method = k.callee ∧
    s.sequence = k.parent.sequence ∧ 0 < s.callOrder ∧
    s.callOrder ≤ c.calls k.callee k.parent.sequence
  injective : ∀ k k' s, c.sites.find? k = some s → c.sites.find? k' = some s → k = k'

/-- The pointers of places. -/
structure PointerBook (c : Context) (events : List Event) : Prop where
  pointer : ∀ p t n, .pointer p t n ∈ events → c.allocations.find? p = some n
  allocation : ∀ p n, c.allocations.find? p = some n →
    ∃ t, firstType? p events = some t ∧ 0 < n ∧ n ≤ c.objects t
  injective : ∀ p p' n, c.allocations.find? p = some n → c.allocations.find? p' = some n →
    firstType? p events = firstType? p' events → p = p'

variable {c d : Context} {events : List Event} {e : Event}

/-! ### other requests leave a book alone -/

theorem RunBook.frame (h : c.RunBook events) (hc : d.sequences = c.sequences)
    (he : e.root? = none) : d.RunBook (events ++ [e]) where
  nodup := by simpa [List.filterMap_append, he] using h.nodup
  root m s hs := by
    unfold runs
    rw [hc]
    cases List.mem_append.1 hs with
    | inl hold => exact h.root m s hold
    | inr hnew =>
        rw [← List.mem_singleton.1 hnew] at he
        contradiction

theorem CallBook.frame (h : c.CallBook events) (hsites : d.sites = c.sites)
    (horders : d.callOrders = c.callOrders) (he : ∀ k s, e ≠ .call k s) :
    d.CallBook (events ++ [e]) where
  call k s hs := by
    rw [hsites]
    cases List.mem_append.1 hs with
    | inl hold => exact h.call k s hold
    | inr hnew => exact absurd (List.mem_singleton.1 hnew).symm (he k s)
  site := by
    unfold calls
    rw [hsites, horders]
    exact h.site
  injective := by
    rw [hsites]
    exact h.injective

theorem firstType?_append (p : Site × Nat) (events : List Event) (e : Event) :
    firstType? p (events ++ [e]) = (firstType? p events).or (e.typeAt? p) := by
  unfold firstType?
  rw [List.findSome?_append, List.findSome?_singleton]

theorem PointerBook.frame (h : c.PointerBook events) (hallocations : d.allocations = c.allocations)
    (hpointers : d.pointers = c.pointers) (he : ∀ p t n, e ≠ .pointer p t n) :
    d.PointerBook (events ++ [e]) := by
  have htype : ∀ p, firstType? p (events ++ [e]) = firstType? p events := by
    intro p
    rw [firstType?_append]
    cases e with
    | pointer p' t n => exact absurd rfl (he p' t n)
    | _ => exact Option.or_none
  refine ⟨fun p t n hn => ?_, fun p n hn => ?_, fun p p' n hn hn' => ?_⟩
  · rw [hallocations]
    cases List.mem_append.1 hn with
    | inl hold => exact h.pointer p t n hold
    | inr hnew => exact absurd (List.mem_singleton.1 hnew).symm (he p t n)
  · unfold objects
    rw [htype, hpointers]
    exact h.allocation p n (hallocations ▸ hn)
  · rw [htype, htype]
    exact h.injective p p' n (hallocations ▸ hn) (hallocations ▸ hn')

/-! ### a new run -/

theorem runs_rootSite (c : Context) (m m' : MethodRef) :
    (c.rootSite m).2.runs m' = if m = m' then c.runs m + 1 else c.runs m' := by
  simp only [rootSite, runs, Table.find?_set]
  split <;> rfl

theorem RunBook.rootSite (h : c.RunBook events) (m : MethodRef) :
    (c.rootSite m).2.RunBook (events ++ [.root m (c.rootSite m).1]) where
  nodup := by
    simp only [List.filterMap_append, List.filterMap_cons, List.filterMap_nil, Event.root?]
    refine List.nodup_append.2 ⟨h.nodup, by simp, ?_⟩
    intro s hs t ht heq
    -- an earlier run of the method has a smaller number
    obtain ⟨e, he, hroot⟩ := List.mem_filterMap.1 hs
    cases e with
    | root m' s' =>
        obtain rfl := Option.some.inj hroot
        obtain ⟨hmethod, -, hsequence⟩ := h.root m' s' he
        rw [heq, List.mem_singleton.1 ht] at hmethod hsequence
        obtain rfl : m = m' := hmethod
        exact Nat.lt_irrefl _ hsequence
    | call k s' => contradiction
    | pointer p t n => contradiction
  root m' s hs := by
    rw [runs_rootSite]
    cases List.mem_append.1 hs with
    | inl hold =>
        obtain ⟨hmethod, horder, hsequence⟩ := h.root m' s hold
        refine ⟨hmethod, horder, ?_⟩
        split
        · next heq =>
            subst heq
            omega
        · exact hsequence
    | inr hnew =>
        obtain ⟨rfl, rfl⟩ := Event.root.inj (List.mem_singleton.1 hnew)
        exact ⟨rfl, rfl, by simp [Context.rootSite, runs]⟩

/-! ### a call -/

/-- A site whose number is above the counter is new. -/
theorem CallBook.ne_of_calls_lt (h : c.CallBook events) {s t : Site} (hs : c.sites.find? k = some s)
    (ht : c.calls t.method t.sequence < t.callOrder) : s ≠ t := by
  rintro rfl
  obtain ⟨hmethod, hsequence, -, hle⟩ := h.site k s hs
  rw [← hmethod, ← hsequence] at hle
  omega

theorem CallBook.callSite (h : c.CallBook events) (k : CallKey) :
    (c.callSite k.parent k.offset k.callee).2.CallBook
      (events ++ [.call k (c.callSite k.parent k.offset k.callee).1]) := by
  have hcall : ∀ k' s, Event.call k' s ∈
      events ++ [.call k (c.callSite k.parent k.offset k.callee).1] →
      (c.callSite k.parent k.offset k.callee).2.sites.find? k' = some s := by
    intro k' s hs
    cases List.mem_append.1 hs with
    | inl hold => exact (c.le_callSite k.parent k.offset k.callee).site k' s (h.call k' s hold)
    | inr hnew =>
        obtain ⟨rfl, rfl⟩ := Event.call.inj (List.mem_singleton.1 hnew)
        exact c.find?_callSite k'.parent k'.offset k'.callee
  refine ⟨hcall, ?_, ?_⟩
  all_goals clear hcall
  · cases hfind : c.sites.find? k with
    | some t =>
        rw [callSite_of_some hfind]
        exact h.site
    | none =>
        rw [callSite_of_none hfind]
        intro k' s hs
        simp only [Table.find?_set] at hs
        simp only [calls, Table.find?_set]
        split at hs
        · next heq =>
            subst heq
            obtain rfl := Option.some.inj hs
            exact ⟨rfl, rfl, Nat.succ_pos _, by simp [calls]⟩
        · obtain ⟨hmethod, hsequence, hpos, hle⟩ := h.site k' s hs
          refine ⟨hmethod, hsequence, hpos, ?_⟩
          unfold calls at hle
          split
          · next heq =>
              rw [heq]
              exact Nat.le_succ_of_le hle
          · exact hle
  · cases hfind : c.sites.find? k with
    | some t =>
        rw [callSite_of_some hfind]
        exact h.injective
    | none =>
        rw [callSite_of_none hfind]
        intro k₁ k₂ s h₁ h₂
        simp only [Table.find?_set] at h₁ h₂
        split at h₁
        · next heq₁ =>
            split at h₂
            · next heq₂ => exact heq₁.symm.trans heq₂
            · rw [← Option.some.inj h₁] at h₂
              exact absurd rfl (h.ne_of_calls_lt h₂ (Nat.lt_succ_self _))
        · split at h₂
          · rw [← Option.some.inj h₂] at h₁
            exact absurd rfl (h.ne_of_calls_lt h₁ (Nat.lt_succ_self _))
          · exact h.injective k₁ k₂ s h₁ h₂

/-! ### an allocation -/

/-- A place has a pointer as soon as it was asked for. -/
theorem PointerBook.firstType?_eq_none (h : c.PointerBook events) {p : Site × Nat}
    (hp : c.allocations.find? p = none) : firstType? p events = none := by
  refine List.findSome?_eq_none_iff.2 fun e he => ?_
  cases e with
  | pointer p' t n =>
      refine if_neg ?_
      rintro rfl
      exact absurd (hp.symm.trans (h.pointer p' t n he)) (by simp)
  | _ => rfl

/-- A place that has a pointer keeps the type with which it was first asked for. -/
theorem PointerBook.firstType?_append_of_some (h : c.PointerBook events) {p : Site × Nat} {n : Nat}
    (hn : c.allocations.find? p = some n) (e : Event) :
    firstType? p (events ++ [e]) = firstType? p events := by
  obtain ⟨t, ht, -⟩ := h.allocation p n hn
  rw [firstType?_append, ht]
  rfl

theorem PointerBook.pointerOf (h : c.PointerBook events) (site : Site) (offset : Nat)
    (t : TypeRef) :
    (c.pointer site offset t).2.PointerBook
      (events ++ [.pointer (site, offset) t (c.pointer site offset t).1]) := by
  have hpointer : ∀ p u n, Event.pointer p u n ∈
      events ++ [.pointer (site, offset) t (c.pointer site offset t).1] →
      (c.pointer site offset t).2.allocations.find? p = some n := by
    intro p u n hn
    cases List.mem_append.1 hn with
    | inl hold => exact (c.le_pointer site offset t).pointer p n (h.pointer p u n hold)
    | inr hnew =>
        obtain ⟨rfl, rfl, rfl⟩ := Event.pointer.inj (List.mem_singleton.1 hnew)
        exact c.find?_pointer site offset u
  refine ⟨hpointer, ?_, ?_⟩
  all_goals clear hpointer
  · cases hfind : c.allocations.find? (site, offset) with
    | some m =>
        rw [pointer_of_some t hfind]
        intro p n hn
        rw [h.firstType?_append_of_some hn]
        exact h.allocation p n hn
    | none =>
        rw [pointer_of_none t hfind]
        intro p n hn
        simp only [Table.find?_set] at hn
        simp only [objects, Table.find?_set]
        split at hn
        · next heq =>
            subst heq
            obtain rfl := Option.some.inj hn
            refine ⟨t, ?_, Nat.succ_pos _, by simp [objects]⟩
            rw [firstType?_append, h.firstType?_eq_none hfind]
            simp [Event.typeAt?]
        · obtain ⟨u, hu, hpos, hle⟩ := h.allocation p n hn
          refine ⟨u, (h.firstType?_append_of_some hn _).trans hu, hpos, ?_⟩
          unfold objects at hle
          split
          · next heq =>
              rw [heq]
              exact Nat.le_succ_of_le hle
          · exact hle
  · cases hfind : c.allocations.find? (site, offset) with
    | some m =>
        rw [pointer_of_some t hfind]
        intro p p' n hn hn' htype
        rw [h.firstType?_append_of_some hn, h.firstType?_append_of_some hn'] at htype
        exact h.injective p p' n hn hn' htype
    | none =>
        rw [pointer_of_none t hfind]
        -- a pointer of the type is smaller than the new one
        have hnew : ∀ p, c.allocations.find? p = some (c.objects t + 1) →
            firstType? (site, offset)
                (events ++ [.pointer (site, offset) t (c.objects t + 1)]) ≠
              firstType? p (events ++ [.pointer (site, offset) t (c.objects t + 1)]) := by
          intro p hp htype
          obtain ⟨u, hu, -, hle⟩ := h.allocation p _ hp
          rw [h.firstType?_append_of_some hp, firstType?_append, h.firstType?_eq_none hfind,
            hu] at htype
          obtain rfl : t = u := by simpa [Event.typeAt?] using htype
          omega
        intro p p' n hn hn' htype
        simp only [Table.find?_set] at hn hn'
        split at hn
        · next heq =>
            subst heq
            split at hn'
            · next heq' => exact heq'
            · obtain rfl := Option.some.inj hn
              exact absurd htype (hnew p' hn')
        · split at hn'
          · next heq' =>
              subst heq'
              obtain rfl := Option.some.inj hn'
              exact absurd htype.symm (hnew p hn)
          · rw [h.firstType?_append_of_some hn, h.firstType?_append_of_some hn'] at htype
            exact h.injective p p' n hn hn' htype

/-! ## all requests -/

/-- All three books. -/
structure Books (c : Context) (events : List Event) : Prop where
  runs : c.RunBook events
  calls : c.CallBook events
  pointers : c.PointerBook events

theorem books_empty : empty.Books [] where
  runs := ⟨List.nodup_nil, fun _ _ h => by contradiction⟩
  calls := ⟨fun _ _ h => by contradiction, fun _ _ h => by simp [empty] at h,
    fun _ _ _ h => by simp [empty] at h⟩
  pointers := ⟨fun _ _ _ h => by contradiction, fun _ _ h => by simp [empty] at h,
    fun _ _ _ h => by simp [empty] at h⟩

/-- The counters and answers of other kinds are not touched by a call, -/
theorem callSite_frame (c : Context) (k : CallKey) :
    let d := (c.callSite k.parent k.offset k.callee).2
    d.sequences = c.sequences ∧ d.allocations = c.allocations ∧ d.pointers = c.pointers := by
  cases hfind : c.sites.find? k with
  | some s =>
      rw [callSite_of_some hfind]
      exact ⟨rfl, rfl, rfl⟩
  | none =>
      rw [callSite_of_none hfind]
      exact ⟨rfl, rfl, rfl⟩

/-- nor by an allocation. -/
theorem pointer_frame (c : Context) (site : Site) (offset : Nat) (t : TypeRef) :
    let d := (c.pointer site offset t).2
    d.sequences = c.sequences ∧ d.sites = c.sites ∧ d.callOrders = c.callOrders := by
  cases hfind : c.allocations.find? (site, offset) with
  | some n =>
      rw [pointer_of_some t hfind]
      exact ⟨rfl, rfl, rfl⟩
  | none =>
      rw [pointer_of_none t hfind]
      exact ⟨rfl, rfl, rfl⟩

/-- One request keeps the books. -/
theorem Books.serve (h : c.Books events) (q : Query) :
    (c.serve q).2.Books (events ++ [(c.serve q).1]) := by
  cases q with
  | root m =>
      exact ⟨h.runs.rootSite m, h.calls.frame rfl rfl (by rintro k s ⟨⟩),
        h.pointers.frame rfl rfl (by rintro p t n ⟨⟩)⟩
  | call k =>
      obtain ⟨hsequences, hallocations, hpointers⟩ := c.callSite_frame k
      exact ⟨h.runs.frame hsequences rfl, h.calls.callSite k,
        h.pointers.frame hallocations hpointers (by rintro p t n ⟨⟩)⟩
  | pointer site offset t =>
      obtain ⟨hsequences, hsites, horders⟩ := c.pointer_frame site offset t
      exact ⟨h.runs.frame hsequences rfl, h.calls.frame hsites horders (by rintro k s ⟨⟩),
        h.pointers.pointerOf site offset t⟩

/-- Any number of requests keep them. -/
theorem Books.log (h : c.Books events) (queries : List Query) :
    ∃ d : Context, d.Books (events ++ c.log queries) := by
  induction queries generalizing c events with
  | nil => exact ⟨c, by simpa [Context.log] using h⟩
  | cons q queries ih =>
      obtain ⟨d, hd⟩ := ih (h.serve q)
      exact ⟨d, by simpa [Context.log] using hd⟩

theorem Books.fresh (h : c.Books events) : Fresh events where
  roots := h.runs.nodup
  rootsApart m s k t hs ht := by
    rintro rfl
    obtain ⟨-, horder, -⟩ := h.runs.root m s hs
    obtain ⟨-, -, hpos, -⟩ := h.calls.site k s (h.calls.call k s ht)
    omega
  calls k k' s s' hs hs' := by
    have hk := h.calls.call k s hs
    have hk' := h.calls.call k' s' hs'
    constructor
    · rintro rfl
      exact h.calls.injective k k' s hk hk'
    · rintro rfl
      exact Option.some.inj (hk.symm.trans hk')
  pointers p p' t t' n n' hn hn' := by
    have hp := h.pointers.pointer p t n hn
    have hp' := h.pointers.pointer p' t' n' hn'
    obtain ⟨-, -, hpos, -⟩ := h.pointers.allocation p n hp
    refine ⟨hpos, ?_, ?_⟩
    · rintro rfl
      exact Option.some.inj (hp.symm.trans hp')
    · rintro hne htype rfl
      exact hne (h.pointers.injective p p' n hp hp' htype)
  constants s s' _ _ hne hmethod x x' f f' hx hx' hf hf' :=
    Renaming.symbol_ne hne hmethod hx hx' hf hf'

/-- **Sites and pointers are fresh**: whatever a context is asked for from the start, no answer is
given twice where it should not be. -/
theorem fresh_log (queries : List Query) : Fresh (empty.log queries) := by
  obtain ⟨d, hd⟩ := books_empty.log queries
  exact hd.fresh

end Context

end Pathwise
