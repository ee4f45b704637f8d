import Sdb.L4Display.Runs

/-!
# Paths

`LeadsTo slots o path o'`: where a path leads by itself, an index in an array
and an iterator in a table or an instance. `WithVariableAtPath` goes there
(`LeadsTo.gives`): it runs `fn` on the object at the end and pops what it pushed
on the way, whatever `fn` does to the heap.

* `Reaches`: what navigating one path part does.
-/
namespace Sdb.L4

open Sdb.L1 Sdb.L3 Sdb.Exec

/-! ## Path parts -/

theorem ofInt_natCast {i : Nat} (h : i < 2 ^ 64) : UInt64.ofInt (i : Int) = UInt64.ofNat i := by
  unfold UInt64.ofInt
  congr 1
  omega

theorem toNat_ofInt {i : Nat} (h : i < 2 ^ 64) : (UInt64.ofInt (i : Int)).toNat = i := by
  rw [ofInt_natCast h]
  simp
  omega

theorem toSqInteger_of_lt {part : UInt64} (h : part.toNat < 2 ^ 63) :
    toSqInteger part = part.toNat := by
  rw [toSqInteger, Int64.toInt, UInt64.toBitVec_toInt64, BitVec.toInt_eq_toNat_cond]
  simp
  omega

theorem toSqInteger_of_le {part : UInt64} (h : 2 ^ 63 ≤ part.toNat) : toSqInteger part < 0 := by
  have hlt := part.toNat_lt
  rw [toSqInteger, Int64.toInt, UInt64.toBitVec_toInt64, BitVec.toInt_eq_toNat_cond]
  simp
  omega

theorem toInt_of_lt {part : UInt64} (h : part.toNat < 2 ^ 31) : toInt part = part.toNat := by
  rw [toInt, Int32.toInt]
  simp
  rw [Int.bmod_eq_of_le (by omega) (by omega)]

section
variable {H : Type} (api : SqApi H) (h : H)
variable (slots : SqObject → List (Option (SqObject × SqObject)))

/-- The path part `part` of `o` leads to `v`: the rest of the path is walked, or
`fn` is run, with `v` on top, and what was pushed for it is popped again. -/
def Reaches (o : SqObject) (part : UInt64) (v : SqObject) : Prop :=
  ∃ pushed : List SqObject, ∀ (α : Type) (fn : VmM H (Except ReturnCode α)) (path : List UInt64)
    (rest : List SqObject) (faults : List Fault),
    (withVariableAtPath api fn (part :: path)).run ⟨o :: rest, h, faults⟩ =
      (do
        let rc ← withVariableAtPath api fn path
        sqPop (v :: pushed).length
        return rc : VmM H (Except ReturnCode α)).run ⟨v :: pushed ++ o :: rest, h, faults⟩

/-- `Reaches`, with what is pushed below `v`. -/
def ReachesOver (o : SqObject) (part : UInt64) (v : SqObject) (pushed : List SqObject) : Prop :=
  ∀ (α : Type) (fn : VmM H (Except ReturnCode α)) (path : List UInt64) (rest : List SqObject)
    (faults : List Fault),
    (withVariableAtPath api fn (part :: path)).run ⟨o :: rest, h, faults⟩ =
      (do
        let rc ← withVariableAtPath api fn path
        sqPop (v :: pushed).length
        return rc : VmM H (Except ReturnCode α)).run ⟨v :: pushed ++ o :: rest, h, faults⟩

/-- Where a path leads: an element of an array by its index, or a slot of a table
or an instance by its iterator. -/
inductive LeadsTo : SqObject → List UInt64 → SqObject → Prop where
  | here (o : SqObject) : LeadsTo o [] o
  | element {a : Nat} {part : UInt64} {path : List UInt64} {key v o' : SqObject}
      (hpart : part.toNat < 2 ^ 31)
      (he : (slots (.array a))[part.toNat]? = some (some (key, v))) (hrest : LeadsTo v path o') :
      LeadsTo (.array a) (part :: path) o'
  | slot {o : SqObject} {part : UInt64} {path : List UInt64} {key v o' : SqObject} {j : Nat}
      (ho : o.type = .table ∨ o.type = .instance_)
      (hs : Slots.next (slots o) part.toNat = some ((key, v), j)) (hrest : LeadsTo v path o') :
      LeadsTo o (part :: path) o'

/-- The stack on the way: from the object on top of a stack, a path leads to the
object on top of the other. -/
inductive Descends : List SqObject → List UInt64 → List SqObject → Prop where
  | here (stack : List SqObject) : Descends stack [] stack
  | element {a : Nat} {part : UInt64} {path : List UInt64} {key v : SqObject}
      {below stack : List SqObject} (hpart : part.toNat < 2 ^ 31)
      (he : (slots (.array a))[part.toNat]? = some (some (key, v)))
      (hrest : Descends (v :: .array a :: below) path stack) :
      Descends (.array a :: below) (part :: path) stack
  | slot {o : SqObject} {part : UInt64} {path : List UInt64} {key v : SqObject} {j : Nat}
      {below stack : List SqObject} (ho : o.type = .table ∨ o.type = .instance_)
      (hs : Slots.next (slots o) part.toNat = some ((key, v), j))
      (hrest : Descends (v :: key :: .integer j :: o :: below) path stack) :
      Descends (o :: below) (part :: path) stack

variable {api h slots}

theorem ReachesOver.reaches {o v : SqObject} {part : UInt64} {pushed : List SqObject}
    (hr : ReachesOver api h o part v pushed) : Reaches api h o part v := ⟨pushed, hr⟩

/-- `fn` may use what is pushed below the object, and put another in its place. -/
theorem ReachesOver.gives {α : Type} {fn : VmM H (Except ReturnCode α)} {o v v' : SqObject}
    {part : UInt64} {path : List UInt64} {pushed : List SqObject} {rc : Except ReturnCode α}
    {h' : H} (hr : ReachesOver api h o part v pushed)
    (hpath : Gives (withVariableAtPath api fn path) h (v :: pushed ++ [o]) rc h'
      (v' :: pushed ++ [o])) :
    Gives (withVariableAtPath api fn (part :: path)) h [o] rc h' [o] := by
  intro rest faults
  have hpop : Gives (sqPop (v :: pushed).length) h' ((v' :: pushed) ++ [o]) () h' [o] :=
    gives_sqPop (v' :: pushed)
  have hrest : Gives (do
      let rc ← withVariableAtPath api fn path
      sqPop (v :: pushed).length
      return rc : VmM H (Except ReturnCode α)) h (v :: pushed ++ [o]) rc h' [o] :=
    hpath.bind (hpop.bind (gives_pure _))
  have hrun := hrest rest faults
  rw [List.append_assoc] at hrun
  exact (hr α fn path rest faults).trans hrun

theorem Reaches.gives {α : Type} {fn : VmM H (Except ReturnCode α)} {o v : SqObject}
    {part : UInt64} {path : List UInt64} {rc : Except ReturnCode α} {h' : H}
    (hr : Reaches api h o part v) (hpath : Gives (withVariableAtPath api fn path) h [v] rc h' [v]) :
    Gives (withVariableAtPath api fn (part :: path)) h [o] rc h' [o] := by
  obtain ⟨pushed, hrun⟩ := hr
  exact ReachesOver.gives hrun (hpath.frame (pushed ++ [o]))

/-- A step by an iterator of a table or an instance. -/
theorem reachesOver_next {o : SqObject} (ho : o.type = .table ∨ o.type = .instance_)
    {part : UInt64} {key v : SqObject} {j : Nat} (hlt : part.toNat < 2 ^ 63)
    (hstep : api.advance h o (.integer part.toNat) = (h, some (key, v, .integer j))) :
    ReachesOver api h o part v [key, .integer j] := by
  intro α fn path rest faults
  have htype : Gives (sqGettype 1) h [o] o.type h [o] := gives_sqGettype rfl
  have hpush : Gives (sqPushobject (.integer part.toNat)) h [o] () h [.integer part.toNat, o] :=
    gives_sqPushobject _
  have hslot : Gives (sqNext api 2) h [.integer part.toNat, o] true h [v, key, .integer j, o] :=
    gives_sqNext api rfl hstep
  rw [withVariableAtPath, toSqInteger_of_lt hlt]
  cases o with
  | table a =>
    exact (htype.run_bind _ rest faults).trans
      ((hpush.run_bind _ rest faults).trans (hslot.run_bind _ rest faults))
  | instance_ a =>
    exact (htype.run_bind _ rest faults).trans
      ((hpush.run_bind _ rest faults).trans (hslot.run_bind _ rest faults))
  | _ => simp [SqObject.type] at ho

theorem reachesOver_slot (hv : SlotView api h slots) {o : SqObject}
    (ho : o.type = .table ∨ o.type = .instance_) {part : UInt64} {key v : SqObject} {j : Nat}
    (hs : Slots.next (slots o) part.toNat = some ((key, v), j)) :
    ReachesOver api h o part v [key, .integer j] :=
  reachesOver_next ho ((Slots.next_lt hs).trans (hv.bounded o)) (hv.next_some hs)

/-- A step by an index of an array. -/
theorem reachesOver_index {a : Nat} {part : UInt64} {v : SqObject} (hpart : part.toNat < 2 ^ 31)
    (hsize : (part.toNat : Int) < api.getsize h (.array a))
    (hget : api.get h (.array a) (.integer part.toNat) = (h, some v)) :
    ReachesOver api h (.array a) part v [] := by
  intro α fn path rest faults
  rw [withVariableAtPath, toInt_of_lt hpart]
  have htype : Gives (sqGettype 1) h [.array a] (SqObject.array a).type h [.array a] :=
    gives_sqGettype rfl
  have hgetsize : Gives (sqGetsize api 1) h [.array a] (api.getsize h (.array a)) h [.array a] :=
    gives_sqGetsize api rfl
  have hpush : Gives (sqPushobject (.integer part.toNat)) h [.array a] () h
    [.integer part.toNat, .array a] := gives_sqPushobject _
  have hgets : Gives (sqGet api 2) h [.integer part.toNat, .array a] true h [v, .array a] :=
    gives_sqGet api rfl hget
  refine (htype.run_bind _ rest faults).trans ((hgetsize.run_bind _ rest faults).trans ?_)
  rw [if_neg (by omega)]
  exact (hpush.run_bind _ rest faults).trans (hgets.run_bind _ rest faults)

theorem reachesOver_element (ha : ArrayView api h slots) {a : Nat} {part : UInt64}
    {key v : SqObject} (hpart : part.toNat < 2 ^ 31)
    (he : (slots (.array a))[part.toNat]? = some (some (key, v))) :
    ReachesOver api h (.array a) part v [] := by
  have hlt : part.toNat < (slots (.array a)).length := (List.getElem?_eq_some_iff.mp he).1
  obtain ⟨element, hslot, hget⟩ := ha.occupied a part.toNat hlt
  have hval : v = element := by
    rw [he] at hslot
    simp only [Option.some.injEq, Prod.mk.injEq] at hslot
    exact hslot.2
  subst hval
  refine reachesOver_index hpart ?_ hget
  rw [ha.getsize]
  omega

/-- `WithVariableAtPath` goes where the path leads, and back. -/
theorem LeadsTo.gives (hv : SlotView api h slots) (ha : ArrayView api h slots)
    {o o' : SqObject} {path : List UInt64} (hp : LeadsTo slots o path o') {α : Type}
    {fn : VmM H (Except ReturnCode α)} {more : List UInt64} {rc : Except ReturnCode α} {h' : H}
    (hmore : Gives (withVariableAtPath api fn more) h [o'] rc h' [o']) :
    Gives (withVariableAtPath api fn (path ++ more)) h [o] rc h' [o] := by
  induction hp with
  | here o => exact hmore
  | element hpart he hrest ih => exact (reachesOver_element ha hpart he).reaches.gives (ih hmore)
  | slot ho hs hrest ih => exact (reachesOver_slot hv ho hs).reaches.gives (ih hmore)

theorem LeadsTo.trans {o o' o'' : SqObject} {path path' : List UInt64}
    (hp : LeadsTo slots o path o') (hp' : LeadsTo slots o' path' o'') :
    LeadsTo slots o (path ++ path') o'' := by
  induction hp with
  | here o => exact hp'
  | element hpart he hrest ih => exact .element hpart he (ih hp')
  | slot ho hs hrest ih => exact .slot ho hs (ih hp')

theorem LeadsTo.descends {o o' : SqObject} {path : List UInt64} (hp : LeadsTo slots o path o')
    (below : List SqObject) : ∃ below', Descends slots (o :: below) path (o' :: below') := by
  induction hp generalizing below with
  | here o => exact ⟨below, .here _⟩
  | element hpart he hrest ih =>
    obtain ⟨below', hd⟩ := ih (.array _ :: below)
    exact ⟨below', .element hpart he hd⟩
  | slot ho hs hrest ih =>
    obtain ⟨below', hd⟩ := ih (_ :: .integer _ :: _ :: below)
    exact ⟨below', .slot ho hs hd⟩

theorem returns_sqPop_iff {n : Nat} {s t : SqVm H} :
    Returns (sqPop n) s () t ↔ n ≤ s.stack.length ∧ t = { s with stack := s.stack.drop n } := by
  unfold Returns sqPop EStateM.run
  dsimp only
  split
  · rename_i hle
    constructor
    · intro heq
      injection heq with _ heq
      exact ⟨hle, heq.symm⟩
    · intro heq
      rw [heq.2]
  · rename_i hlt
    constructor
    · intro heq
      cases heq
    · intro heq
      exact absurd heq.1 hlt

/-- What was pushed for a part is popped again. -/
theorem returns_thenPop_iff {α : Type} {m : VmM H α} {n : Nat} {s t : SqVm H} {a : α} :
    Returns (do
      let a ← m
      sqPop n
      return a : VmM H α) s a t ↔
      ∃ u, Returns m s a u ∧ n ≤ u.stack.length ∧ t = { u with stack := u.stack.drop n } := by
  rw [returns_bind_iff]
  constructor
  · intro hret
    obtain ⟨a', u, hu, hrest⟩ := hret
    obtain ⟨_, w, hpop, hpure⟩ := returns_bind_iff.mp hrest
    obtain ⟨rfl, rfl⟩ := returns_pure_iff.mp hpure
    obtain ⟨hle, rfl⟩ := returns_sqPop_iff.mp hpop
    exact ⟨u, hu, hle, rfl⟩
  · intro hret
    obtain ⟨u, hu, hle, rfl⟩ := hret
    exact ⟨a, u, hu, returns_bind_iff.mpr ⟨(), _, returns_sqPop_iff.mpr ⟨hle, rfl⟩, rfl⟩⟩

theorem ReachesOver.returns_iff {o v : SqObject} {part : UInt64} {pushed : List SqObject}
    (hr : ReachesOver api h o part v pushed) {α : Type} {fn : VmM H (Except ReturnCode α)}
    {path : List UInt64} {below : List SqObject} {faults : List Fault}
    {rc : Except ReturnCode α} {t : SqVm H} :
    Returns (withVariableAtPath api fn (part :: path)) ⟨o :: below, h, faults⟩ rc t ↔
      ∃ u, Returns (withVariableAtPath api fn path) ⟨v :: pushed ++ o :: below, h, faults⟩ rc u ∧
        (v :: pushed).length ≤ u.stack.length ∧
        t = { u with stack := u.stack.drop (v :: pushed).length } := by
  have hrun := hr α fn path below faults
  rw [← returns_thenPop_iff]
  unfold Returns
  rw [hrun]

variable (api h) in
/-- Navigating `path` on `stack` runs the rest of the path on `stack'`, and pops
what is on it over `stack`. -/
def RunsOver (stack : List SqObject) (path : List UInt64) (stack' pushed : List SqObject) : Prop :=
  ∀ (α : Type) (fn : VmM H (Except ReturnCode α)) (more : List UInt64) (faults : List Fault)
    (rc : Except ReturnCode α) (t : SqVm H),
    Returns (withVariableAtPath api fn (path ++ more)) ⟨stack, h, faults⟩ rc t ↔
      ∃ u, Returns (withVariableAtPath api fn more) ⟨stack', h, faults⟩ rc u ∧
        pushed.length ≤ u.stack.length ∧ t = { u with stack := u.stack.drop pushed.length }

theorem ReachesOver.runsOver {o v : SqObject} {part : UInt64} {path : List UInt64}
    {above below pushed stack' : List SqObject} (hr : ReachesOver api h o part v above)
    (hrest : RunsOver api h (v :: above ++ o :: below) path stack' pushed) :
    RunsOver api h (o :: below) (part :: path) stack' (pushed ++ v :: above) := by
  intro α fn more faults rc t
  rw [List.cons_append, hr.returns_iff, List.length_append]
  constructor
  · intro hret
    obtain ⟨w, hw, hle, rfl⟩ := hret
    obtain ⟨u, hu, hle', rfl⟩ := (hrest α fn more faults rc w).mp hw
    rw [List.length_drop] at hle
    exact ⟨u, hu, by omega, by rw [List.drop_drop]⟩
  · intro hret
    obtain ⟨u, hu, hle, rfl⟩ := hret
    refine ⟨_, (hrest α fn more faults rc _).mpr ⟨u, hu, by omega, rfl⟩, ?_, ?_⟩
    · rw [List.length_drop]
      omega
    · rw [List.drop_drop]

theorem Descends.runsOver (hv : SlotView api h slots) (ha : ArrayView api h slots)
    {stack stack' : List SqObject} {path : List UInt64} (hd : Descends slots stack path stack') :
    ∃ pushed, stack' = pushed ++ stack ∧ RunsOver api h stack path stack' pushed := by
  induction hd with
  | here stack =>
    refine ⟨[], rfl, fun α fn more faults rc t => ?_⟩
    constructor
    · intro hret
      exact ⟨t, hret, Nat.zero_le _, rfl⟩
    · intro hret
      obtain ⟨u, hu, -, rfl⟩ := hret
      exact hu
  | @element a part path key v below stack hpart he hrest ih =>
    obtain ⟨pushed, hstack, hruns⟩ := ih
    refine ⟨pushed ++ [v], by simp [hstack], ?_⟩
    exact (reachesOver_element ha hpart he).runsOver hruns
  | @slot o part path key v j below stack ho hs hrest ih =>
    obtain ⟨pushed, hstack, hruns⟩ := ih
    refine ⟨pushed ++ [v, key, .integer j], by simp [hstack], ?_⟩
    exact (reachesOver_slot hv ho hs).runsOver hruns

end

end Sdb.L4
