import Sdb.L4Display.FrameNumbers

/-!
# Pages of local variables

`WithStackRootVariables` runs from `beginIterator` up to `beginIterator + count`,
a sum of two `uint32_t` that is cut to 32 bits. The locals of a frame are those
`sq_getlocal` numbers from 0. Each is read when its turn comes: a `_nexti`
metamethod that rendering the one before called may have assigned to it, but does
not change the number of locals (`FixedLocals`).

* `locals_listed`: what the loop lists;
* `localPage_iff`: when a page holds exactly the locals that its two numbers say.
-/
namespace Sdb.L4

open Sdb.L1 Sdb.L3 Sdb.Exec

section
variable {H : Type} (api : SqApi H) (lib : CppLib) (fuel : Nat) (strToLower : Bytes → Bytes)
variable (frames : H → List SqStackInfos)

/-- The frame has `n` locals. -/
def HasLocals (h : H) (level n : Nat) : Prop :=
  ∀ i, (api.getlocal h level i).isSome ↔ i < n

/-- A `_nexti` metamethod adds no local to a frame and takes none away. -/
def FixedLocals : Prop := ∀ h o iter level i,
  (api.getlocal (api.nexti h o iter).1 level i).isSome = (api.getlocal h level i).isSome

/-- The variables listed for the locals `i` of a frame, one after the other: what
`CreateChildVariable` says of the value, under its index and its name, and not editable. -/
inductive LocalsListed (r : Renderer H) (level : Nat) : H → List Nat → List Variable → Prop
  | nil (h : H) : LocalsListed r level h [] []
  | cons {h : H} {i : Nat} {is : List Nat} {name : Bytes} {value : SqObject}
    {stack : List SqObject} {faults : List Fault} {shown : Variable} {t : SqVm H}
    {vars : List Variable} (found : api.getlocal h level i = some (name, value))
    (shows : Returns (createChildVariable api r) ⟨value :: stack, h, faults⟩ shown t)
    (rest : LocalsListed r level t.heap is vars) :
    LocalsListed r level h (i :: is)
      ({ shown with
        pathIterator := UInt64.ofNat i
        pathUiString := cstr name
        editable := false } :: vars)

/-- The locals with an index from `beginIterator` on and below
`beginIterator + count`, in exact arithmetic. -/
def localIndices (n : Nat) (pagination : PaginationInfo) : List Nat :=
  (List.range n).filter fun i => pagination.beginIterator.toNat ≤ i ∧
    i < pagination.beginIterator.toNat + pagination.count.toNat

/-- `GetStackVariables` with an empty path returns exactly these of the `n` locals, in
order. -/
def PageExact (s : L2.State (SqVm H)) (stackFrame : UInt32) (pagination : PaginationInfo)
    (n : Nat) : Prop :=
  ∃ vars, getStackVariables api lib fuel strToLower frames s stackFrame [] pagination =
      some (.success, vars) ∧
    LocalsListed api (renderer api lib fuel) stackFrame.toNat s.script.heap
      (localIndices n pagination) vars

variable {api lib fuel strToLower frames}

theorem LocalsListed.length_eq {r : Renderer H} {level : Nat} {h : H} {is : List Nat}
    {vars : List Variable} (hl : LocalsListed api r level h is vars) : is.length = vars.length := by
  induction hl with
  | nil => rfl
  | cons _ _ _ ih => simp [ih]

/-! ## The loop -/

theorem FixedLocals.readOrder (hx : FixedLocals api) : ReadOrder api fun h h' =>
    ∀ level i, (api.getlocal h' level i).isSome = (api.getlocal h level i).isSome where
  refl _ _ _ := rfl
  trans _ _ _ h₁ h₂ level i := (h₂ level i).trans (h₁ level i)
  advance := advance_heap (Q := fun h h' => ∀ level i,
    (api.getlocal h' level i).isSome = (api.getlocal h level i).isSome) (fun _ _ _ => rfl) hx

theorem heap_sqPop {n : Nat} {v t : SqVm H} (h : Returns (sqPop n) v () t) : t.heap = v.heap := by
  have hends : Ends (sqPop n) v (fun _ t => t.heap = v.heap) fun _ _ => True := by
    unfold sqPop Ends EStateM.run
    dsimp only
    by_cases hle : n ≤ v.stack.length
    · rw [if_pos hle]
    · rw [if_neg hle]
      trivial
  exact hends.ok h

/-- Rendering a value and popping it leaves the number of locals. -/
theorem FixedLocals.shown (hx : FixedLocals api) {v t u : SqVm H} {variable_ : Variable}
    (h : Returns (createChildVariable api (renderer api lib fuel)) v variable_ t)
    (hpop : Returns sqPoptop t () u) {level n : Nat} (hl : HasLocals api v.heap level n) :
    HasLocals api u.heap level n := by
  have hq := hx.readOrder
  have hrenders : ReadOrder.Renders _ (renderer api lib fuel) := hq.renderer lib fuel
  intro i
  rw [heap_sqPop hpop, (hq.createChildVariable hrenders v).ok h]
  exact hl i

/-- The loop lists up to `k` locals from `nSeq` on. -/
theorem locals_listed (hx : FixedLocals api) {level k n nSeq : Nat} {v t : SqVm H}
    {vars : List Variable} (hl : HasLocals api v.heap level n)
    (hr : Returns (rootVariablesLoop api (renderer api lib fuel) level k nSeq) v vars t) :
    LocalsListed api (renderer api lib fuel) level v.heap
      (List.range' nSeq (min k (n - nSeq))) vars := by
  induction k generalizing nSeq v vars with
  | zero =>
    obtain ⟨rfl, -⟩ := returns_pure_iff.mp hr
    rw [Nat.zero_min]
    exact .nil _
  | succ k ih =>
    unfold rootVariablesLoop at hr
    obtain ⟨found, u, hlocal, hfound⟩ := returns_bind_iff.mp hr
    rcases returns_sqGetlocal_iff.mp hlocal with ⟨hnone, rfl, rfl⟩ | ⟨name, value, hsome, rfl, rfl⟩
    · obtain ⟨rfl, -⟩ := returns_pure_iff.mp hfound
      have hpast : ¬ nSeq < n := fun hlt => by simpa [hnone] using (hl nSeq).mpr hlt
      rw [Nat.sub_eq_zero_of_le (Nat.le_of_not_lt hpast), Nat.min_zero]
      exact .nil _
    · obtain ⟨shown, w, hshown, hpopped⟩ := returns_bind_iff.mp hfound
      obtain ⟨_, x, hpop, hothers⟩ := returns_bind_iff.mp hpopped
      obtain ⟨rest, y, hrest, hpure⟩ := returns_bind_iff.mp hothers
      obtain ⟨rfl, rfl⟩ := returns_pure_iff.mp hpure
      have hlt : nSeq < n := (hl nSeq).mp (by rw [hsome]; rfl)
      have hmin : min (k + 1) (n - nSeq) = min k (n - (nSeq + 1)) + 1 := by omega
      have hheap : w.heap = x.heap := (heap_sqPop hpop).symm
      have hothers := ih (hx.shown hshown hpop hl) hrest
      rw [hmin, List.range'_succ]
      rw [← hheap] at hothers
      exact .cons hsome hshown hothers

/-! ## The indices of a page -/

theorem localIndices_eq (n : Nat) (pagination : PaginationInfo) :
    localIndices n pagination = List.range' pagination.beginIterator.toNat
      (min pagination.count.toNat (n - pagination.beginIterator.toNat)) := by
  unfold localIndices
  induction n with
  | zero => simp
  | succ n ih =>
    rw [List.range_succ, List.filter_append, ih]
    generalize pagination.beginIterator.toNat = b
    generalize pagination.count.toNat = c
    by_cases hin : b ≤ n ∧ n < b + c
    · have hmin : min c (n + 1 - b) = min c (n - b) + 1 := by omega
      have hlast : b + min c (n - b) = n := by omega
      rw [hmin, List.range'_1_concat, hlast]
      simp [hin]
    · have hmin : min c (n + 1 - b) = min c (n - b) := by omega
      rw [hmin]
      simp [hin]

/-- The bound of the loop, less its start. -/
theorem loopCount (b c : UInt32) :
    (b + c).toNat - b.toNat = if b.toNat + c.toNat < 2 ^ 32 then c.toNat else 0 := by
  have hb := b.toNat_lt
  have hc := c.toNat_lt
  rw [UInt32.toNat_add]
  split
  · rw [Nat.mod_eq_of_lt (by omega)]
    omega
  · rw [Nat.mod_eq_sub_mod (by omega), Nat.mod_eq_of_lt (by omega)]
    omega

/-! ## Main result -/

variable {s : L2.State (SqVm H)}

/-- **Which pages of locals are exact.** In a paused state, for an accepted frame with
fewer than 2^32 locals: `beginIterator + count` is below 2^32 or there is no local from
`beginIterator` on, and the locals of the page can be shown. -/
theorem localPage_iff (hx : FixedLocals api) {stackFrame : UInt32} {n : Nat}
    (hp : s.pauseMutexData.isPaused = true)
    (hle : stackFrame.toNat ≤ s.vmData.currentStack.length)
    (hl : HasLocals api s.script.heap stackFrame.toNat n) (hn : n < 2 ^ 32)
    (pagination : PaginationInfo) :
    PageExact api lib fuel strToLower frames s stackFrame pagination n ↔
      (pagination.beginIterator.toNat + pagination.count.toNat < 2 ^ 32 ∨
        n ≤ pagination.beginIterator.toNat) ∧
      LocalsShown api (renderer api lib fuel) stackFrame.toNat pagination.count.toNat
        pagination.beginIterator.toNat s.script := by
  have hlisted := getStackVariables_iff api lib fuel strToLower frames hp hle pagination
  unfold PageExact
  rw [localIndices_eq]
  simp only [hlisted, withStackRootVariables, loopCount]
  have hb := pagination.beginIterator.toNat_lt
  generalize pagination.beginIterator.toNat = b at hb ⊢
  generalize pagination.count.toNat = c
  by_cases hsum : b + c < 2 ^ 32
  · simp only [if_pos hsum]
    constructor
    · intro h
      obtain ⟨vars, ⟨t, hr⟩, -⟩ := h
      exact ⟨.inl hsum, locals_listed_iff.mp ⟨vars, t, hr⟩⟩
    · intro h
      obtain ⟨vars, t, hr⟩ := locals_listed_iff.mpr h.2
      exact ⟨vars, ⟨t, hr⟩, locals_listed hx hl hr⟩
  · -- the bound has wrapped below the start, and the loop does not run
    simp only [if_neg hsum]
    have hempty : Returns (rootVariablesLoop api (renderer api lib fuel) stackFrame.toNat 0 b)
        s.script [] s.script := rfl
    constructor
    · intro h
      obtain ⟨vars, ⟨t, hr⟩, hvars⟩ := h
      obtain ⟨rfl, -⟩ := hempty.unique hr
      have hlen := hvars.length_eq
      rw [List.length_range', List.length_nil] at hlen
      have hpast : n ≤ b := by omega
      refine ⟨.inr hpast, ?_⟩
      obtain ⟨k, rfl⟩ : ∃ k, c = k + 1 := ⟨c - 1, by omega⟩
      exact .last (by
        have hnone := mt (hl b).mp (Nat.not_lt.mpr hpast)
        simpa using hnone)
    · intro h
      obtain ⟨hcase, -⟩ := h
      have hpast : n ≤ b := by omega
      refine ⟨[], ⟨_, hempty⟩, ?_⟩
      rw [Nat.sub_eq_zero_of_le hpast, Nat.min_zero]
      exact .nil _

end

/-! ## Two locals -/

/-- A VM in one frame with the locals `7` and `8`. -/
def twoLocalsVm : SqVm Heap :=
  ⟨[], { locals := [[([98], .integer 7), ([99], .integer 8)]] }, []⟩

/-- A debugger that is paused in it. -/
def twoLocals : L2.State (SqVm Heap) where
  pauseMutexData := { isPaused := true }
  vmData := { currentStack := [⟨none, 1⟩] }
  script := twoLocalsVm

theorem hasLocals_twoLocals : HasLocals heapApi twoLocalsVm.heap 0 2 := by
  intro i
  rcases i with _ | _ | i
  · exact iff_of_true rfl (by decide)
  · exact iff_of_true rfl (by decide)
  · exact iff_of_false (by simp [heapApi, twoLocalsVm]) (by omega)

theorem fixedLocals_heapApi : FixedLocals heapApi := fun _ _ _ _ _ => rfl

/-- From local 1 on, as many as a `uint32_t` can say: the page is empty. -/
theorem localPage_wraps :
    getStackVariables heapApi insertionLib 1 id heapFrames twoLocals 0 [] ⟨1, 4294967295⟩ =
        some (.success, []) ∧
      ¬ PageExact heapApi insertionLib 1 id heapFrames twoLocals 0 ⟨1, 4294967295⟩ 2 := by
  have hempty : getStackVariables heapApi insertionLib 1 id heapFrames twoLocals 0 []
      ⟨1, 4294967295⟩ = some (.success, []) := rfl
  refine ⟨hempty, ?_⟩
  intro h
  obtain ⟨vars, hvars, hlisted⟩ := h
  rw [hempty] at hvars
  obtain rfl : [] = vars := (Prod.mk.inj (Option.some.inj hvars)).2
  rw [localIndices_eq] at hlisted
  have hlen := hlisted.length_eq
  simp at hlen

/-- Two locals from local 1 on: the second. -/
theorem localPage_second :
    PageExact heapApi insertionLib 1 id heapFrames twoLocals 0 ⟨1, 2⟩ 2 :=
  (localPage_iff fixedLocals_heapApi rfl (by decide) hasLocals_twoLocals (by decide) ⟨1, 2⟩).mpr
    ⟨.inl (by decide), .shown rfl rfl rfl (.last rfl)⟩

end Sdb.L4
