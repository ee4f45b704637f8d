import Sdb.L4Display.Pages
import Sdb.L4Display.Write
import Mathlib.Data.List.TakeWhile

/-!
# What `GetStackVariables` has listed

A path opens an object (`Opens`): its first part is a local of the frame and the
other parts lead from there. `GetStackVariables` of such a path returns in order
exactly if `CreateChildVariables` of the object does (`Opens.listing_iff`), and a
path that lists a variable marked as editable opens an array, a table or an
instance (`opens_of_editable`).

In order means that the stack is afterwards what it was, as the source asserts.
-/
namespace Sdb.L4

open Sdb.L1 Sdb.L3 Sdb.Exec

/-! ## Path parts -/

/-- A part of a path text: the number `stoi` reads. -/
def Decoded (part : UInt64) : Prop :=
  ∃ n : Int, -2147483648 ≤ n ∧ n ≤ 2147483647 ∧ part = UInt64.ofInt n

theorem stoi_range {s : Bytes} {n : Int} (hs : stoi s = some n) :
    -2147483648 ≤ n ∧ n ≤ 2147483647 := by
  have hrange : ∀ (digits : Bytes) (m : Int), (if digits = [] then none else
      if -2147483648 ≤ m ∧ m ≤ 2147483647 then some m else none) = some n →
      -2147483648 ≤ n ∧ n ≤ 2147483647 := by
    intro digits m hm
    split at hm
    · cases hm
    · split at hm
      · rename_i hle
        obtain rfl : m = n := by simpa using hm
        exact hle
      · cases hm
  unfold stoi at hs
  dsimp only at hs
  split at hs
  · exact hrange _ _ hs
  · exact hrange _ _ hs
  · exact hrange _ _ hs

theorem decoded_of_mapM {texts : List Bytes} {parts : List UInt64}
    (hparts : texts.mapM (fun part => (stoi part).map UInt64.ofInt) = some parts) :
    ∀ part ∈ parts, Decoded part := by
  induction texts generalizing parts with
  | nil =>
    obtain rfl : [] = parts := by simpa using hparts
    intro part hmem
    cases hmem
  | cons text texts ih =>
    simp only [List.mapM_cons, Option.bind_eq_bind, Option.bind_eq_some_iff, Option.pure_def,
      Option.some.injEq, Option.map_eq_some_iff] at hparts
    obtain ⟨_, ⟨n, hn, rfl⟩, rest, hrest, rfl⟩ := hparts
    intro part hmem
    rcases List.mem_cons.mp hmem with rfl | hmem
    · obtain ⟨hlo, hhi⟩ := stoi_range hn
      exact ⟨n, hlo, hhi, rfl⟩
    · exact ih hrest part hmem

theorem decoded_of_pathParts {path : Bytes} {parts : List UInt64}
    (hparts : pathParts path = some parts) : ∀ part ∈ parts, Decoded part :=
  decoded_of_mapM hparts

theorem Decoded.toInt {part : UInt64} (hd : Decoded part) :
    (part.toNat < 2 ^ 31 ∧ toInt part = part.toNat) ∨ toInt part < 0 := by
  obtain ⟨n, hlo, hhi, rfl⟩ := hd
  rcases Int.lt_or_le n 0 with hneg | hpos
  · right
    have hnat : (UInt64.ofInt n).toNat = (n % 2 ^ 64).toNat := by
      simp [UInt64.ofInt]
      omega
    rw [L3.toInt, Int32.toInt]
    simp [hnat, Int.bmod]
    omega
  · left
    obtain ⟨i, rfl⟩ := Int.eq_ofNat_of_zero_le hpos
    have hnat : (UInt64.ofInt (i : Int)).toNat = i := toNat_ofInt (by omega)
    have hlt : (UInt64.ofInt (i : Int)).toNat < 2 ^ 31 := by omega
    exact ⟨hlt, toInt_of_lt hlt⟩

theorem splitPath_cons (separator : UInt8) (path : Bytes) :
    ∃ part parts, splitPath separator path = part :: parts := by
  cases path with
  | nil => exact ⟨_, _, rfl⟩
  | cons c cs =>
    unfold splitPath
    split
    · exact ⟨_, _, rfl⟩
    · split <;> exact ⟨_, _, rfl⟩

theorem pathParts_cons {path : Bytes} {parts : List UInt64} (hparts : pathParts path = some parts) :
    ∃ first rest, parts = first :: rest := by
  obtain ⟨text, texts, htexts⟩ := splitPath_cons kPathSeparator path
  rw [pathParts, htexts, List.mapM_cons] at hparts
  simp only [Option.bind_eq_bind, Option.bind_eq_some_iff, Option.pure_def,
    Option.some.injEq] at hparts
  obtain ⟨first, -, rest, -, rfl⟩ := hparts
  exact ⟨first, rest, rfl⟩

/-- The separator joins the parts of two texts. -/
theorem splitPath_append (separator : UInt8) (path path' : Bytes) :
    splitPath separator (path ++ separator :: path') =
      splitPath separator path ++ splitPath separator path' := by
  induction path with
  | nil => simp [splitPath]
  | cons c cs ih =>
    by_cases hc : c = separator
    · simp [splitPath, hc, ih]
    · obtain ⟨part, parts, hparts⟩ := splitPath_cons separator cs
      simp [splitPath, hc, ih, hparts]

theorem splitPath_of_notMem {separator : UInt8} {part : Bytes} (hnot : separator ∉ part) :
    splitPath separator part = [part] := by
  induction part with
  | nil => rfl
  | cons c cs ih =>
    have hc : c ≠ separator := fun heq => hnot (heq ▸ List.mem_cons_self)
    have hrec := ih fun hmem => hnot (List.mem_cons_of_mem c hmem)
    simp [splitPath, hc, hrec]

/-- A decimal numeral. -/
structure Numeral (part : Bytes) (n : Nat) : Prop where
  nonempty : part ≠ []
  digits : ∀ c ∈ part, isDigit c = true
  value : digitsValue part = n

theorem isDigit_range {c : UInt8} (hc : isDigit c = true) : 48 ≤ c.toNat ∧ c.toNat ≤ 57 := by
  simp only [isDigit, Bool.and_eq_true, decide_eq_true_eq, UInt8.le_iff_toNat_le] at hc
  exact hc

theorem Numeral.stoi_eq {part : Bytes} {n : Nat} (hn : Numeral part n) :
    stoi part = if n ≤ 2147483647 then some (n : Int) else none := by
  obtain ⟨hne, hdigits, rfl⟩ := hn
  obtain ⟨c, cs, rfl⟩ := List.exists_cons_of_ne_nil hne
  have hc := isDigit_range (hdigits c List.mem_cons_self)
  have hspace : isSpace c = false := by
    simp [isSpace, UInt8.le_iff_toNat_le, ← UInt8.toNat_inj]
    omega
  have h45 : c ≠ 45 := by
    intro heq
    simp [heq] at hc
  have h43 : c ≠ 43 := by
    intro heq
    simp [heq] at hc
  have hdrop : (c :: cs).dropWhile isSpace = c :: cs := by simp [hspace]
  have htake : (c :: cs).takeWhile isDigit = c :: cs := List.takeWhile_eq_self_iff.mpr hdigits
  unfold stoi
  rw [hdrop]
  dsimp only
  split
  · rename_i heq
    injection heq with hhead
    exact absurd hhead h45
  · rename_i heq
    injection heq with hhead
    exact absurd hhead h43
  · rw [htake, if_neg (by simp)]
    by_cases hle : digitsValue (c :: cs) ≤ 2147483647
    · rw [if_pos hle, if_pos (by simp; omega)]
      simp
    · rw [if_neg hle, if_neg (by simp; omega)]

theorem Numeral.notMem {part : Bytes} {n : Nat} (hn : Numeral part n) :
    kPathSeparator ∉ part := by
  intro hmem
  have hdigit := hn.digits _ hmem
  cases hdigit

/-- A path with one more part. -/
def extendPath (path part : Bytes) : Bytes := path ++ kPathSeparator :: part

theorem pathParts_extendPath {path part : Bytes} {n : Nat} (hn : Numeral part n) :
    pathParts (extendPath path part) =
      if n ≤ 2147483647 then (pathParts path).map fun parts => parts ++ [UInt64.ofInt n]
      else none := by
  unfold pathParts extendPath
  rw [splitPath_append, splitPath_of_notMem hn.notMem, List.mapM_append]
  by_cases hle : n ≤ 2147483647
  · have hlast : [part].mapM (fun part => (stoi part).map UInt64.ofInt) =
        some [UInt64.ofInt n] := by
      simp [hn.stoi_eq, hle]
    rw [if_pos hle, hlast]
    cases (splitPath kPathSeparator path).mapM fun part => (stoi part).map UInt64.ofInt <;> rfl
  · have hlast : [part].mapM (fun part => (stoi part).map UInt64.ofInt) = none := by
      simp [hn.stoi_eq, hle]
    rw [if_neg hle, hlast]
    cases (splitPath kPathSeparator path).mapM fun part => (stoi part).map UInt64.ofInt <;> rfl

/-! ## What a path opens -/

section
variable {H : Type} (api : SqApi H) (slots : H → SqObject → List (Option (SqObject × SqObject)))
variable (h : H)

/-- The path opens the object `o`: from the local `start` of the frame, `middle`
leads to it. -/
structure Opens (stackFrame : UInt32) (path : Bytes) (first : UInt64) (middle : List UInt64)
    (start o : SqObject) : Prop where
  parts : pathParts path = some (first :: middle)
  isLocal : ∃ name, api.getlocal h stackFrame.toNat first.toNat = some (name, start)
  leads : LeadsTo (slots h) start middle o

/-- An index outside an array has no element. -/
def OutOfRange : Prop :=
  ∀ a (n : Int), ¬ (0 ≤ n ∧ n < (slots h (.array a)).length) →
    api.get h (.array a) (.integer n) = (h, none)

variable {api slots h}

/-- A path leads somewhere, or the navigation is refused. -/
theorem leadsTo_or_refused (hh : PlainHeap api slots h) (hout : OutOfRange api slots h)
    {path : List UInt64} (hd : ∀ part ∈ path, Decoded part) (o : SqObject) :
    (∃ o', LeadsTo (slots h) o path o') ∨
      ∀ (α : Type) (fn : VmM H (Except ReturnCode α)),
        Gives (withVariableAtPath api fn path) h [o] (.error .invalidParameter) h [o] := by
  induction path generalizing o with
  | nil => exact .inl ⟨o, .here o⟩
  | cons part path ih =>
    have hrec := fun o => ih (fun part' hmem => hd part' (List.mem_cons_of_mem part hmem)) o
    have hslot : o.type = .table ∨ o.type = .instance_ → (∃ o', LeadsTo (slots h) o (part :: path)
        o') ∨ ∀ (α : Type) (fn : VmM H (Except ReturnCode α)), Gives (withVariableAtPath api fn
          (part :: path)) h [o] (.error .invalidParameter) h [o] := by
      intro ho
      cases hs : Slots.next (slots h o) part.toNat with
      | none => exact .inr fun α fn => gives_noSlot hh ho hs fn path
      | some p =>
        obtain ⟨⟨key, v⟩, j⟩ := p
        rcases hrec v with ⟨o', hleads⟩ | hrefused
        · exact .inl ⟨o', .slot ho hs hleads⟩
        · exact .inr fun α fn => (reachesOver_slot hh.view ho hs).reaches.gives (hrefused α fn)
    cases o with
    | table a => exact hslot (.inl rfl)
    | instance_ a => exact hslot (.inr rfl)
    | array a =>
      have hsize : api.getsize h (.array a) = (slots h (.array a)).length := hh.arrays.getsize a
      have hpart := (hd part List.mem_cons_self).toInt
      by_cases hin : part.toNat < 2 ^ 31 ∧ part.toNat < (slots h (.array a)).length
      · obtain ⟨hsmall, hlt⟩ := hin
        obtain ⟨v, hslot, -⟩ := hh.arrays.occupied a part.toNat hlt
        rcases hrec v with ⟨o', hleads⟩ | hrefused
        · exact .inl ⟨o', .element hsmall hslot hleads⟩
        · exact .inr fun α fn =>
            (reachesOver_element hh.arrays hsmall hslot).reaches.gives (hrefused α fn)
      · refine .inr fun α fn => ?_
        refine (gives_sqGettype rfl).bind ((gives_sqGetsize api rfl).bind ?_)
        split
        · exact gives_pure _
        · rename_i hlt
          have hget := hout a (toInt part) (by omega)
          exact (gives_sqPushobject _).bind ((gives_sqGet_none api rfl hget).bind (gives_pure _))
    | _ => exact .inr fun α fn => (gives_sqGettype rfl).bind (gives_pure _)

/-! ## Commands on a path, on a whole stack -/

section
variable {stackFrame : UInt32} {path : Bytes} {stack : List SqObject} {faults : List Fault}
variable {start : SqObject} {α : Type} {rc : Except ReturnCode α} {t : SqVm H}

theorem returns_withStackVariables_iff {parts : List UInt64} {name : Bytes}
    (hparts : pathParts path = some parts)
    (hlocal : api.getlocal h stackFrame.toNat (parts.headD 0).toNat = some (name, start))
    {fn : List UInt64 → VmM H (Except ReturnCode α)} :
    Returns (withStackVariables api stackFrame path fn) ⟨stack, h, faults⟩ rc t ↔
      ∃ u, Returns (fn parts) ⟨start :: stack, h, faults⟩ rc u ∧ 1 ≤ u.stack.length ∧
        t = { u with stack := u.stack.drop 1 } := by
  have hne : path ≠ [] := by
    rintro rfl
    cases hparts
  have hget : Returns (sqGetlocal api stackFrame.toNat (parts.headD 0).toNat) ⟨stack, h, faults⟩
      (some name) ⟨start :: stack, h, faults⟩ := by
    have hgives := (gives_sqGetlocal api stackFrame.toNat (parts.headD 0).toNat :
      Gives _ h [] _ _ _)
    rw [hlocal] at hgives
    exact hgives stack faults
  unfold withStackVariables
  rw [if_neg hne, hparts]
  constructor
  · intro hret
    obtain ⟨_, u, hu, hrest⟩ := returns_bind_iff.mp hret
    obtain ⟨rfl, rfl⟩ := hget.unique hu
    obtain ⟨rc', w, hw, hrest⟩ := returns_bind_iff.mp hrest
    obtain ⟨_, x, hpop, hpure⟩ := returns_bind_iff.mp hrest
    obtain ⟨rfl, rfl⟩ := returns_pure_iff.mp hpure
    obtain ⟨hle, rfl⟩ := returns_sqPop_iff.mp hpop
    exact ⟨w, hw, hle, rfl⟩
  · intro hret
    obtain ⟨u, hu, hle, rfl⟩ := hret
    refine hget.bind (hu.bind ?_)
    exact returns_bind_iff.mpr ⟨(), _, returns_sqPop_iff.mpr ⟨hle, rfl⟩, rfl⟩

/-- Without numbers for its parts no path succeeds. -/
theorem not_ok_of_noParts (hparts : pathParts path = none)
    {fn : List UInt64 → VmM H (Except ReturnCode α)} {a : α} {s : SqVm H} :
    ¬ Returns (withStackVariables api stackFrame path fn) s (.ok a) t := by
  intro hret
  unfold withStackVariables at hret
  by_cases hne : path = []
  · rw [if_pos hne] at hret
    cases hret
  · rw [if_neg hne, hparts] at hret
    cases hret

/-- A command that navigates to `middle` and goes on from there: what it returns, and
with which heap and faults. -/
theorem returns_command_iff {first : UInt64} {middle more : List UInt64} {name : Bytes}
    {stack' : List SqObject} (hh : PlainHeap api slots h)
    (hparts : pathParts path = some (first :: (middle ++ more)))
    (hlocal : api.getlocal h stackFrame.toNat first.toNat = some (name, start))
    (hd : Descends (slots h) (start :: stack) middle stack') :
    ∃ pushed, stack' = pushed ++ stack ∧
      ∀ {α : Type} {g : List UInt64 → VmM H (Except ReturnCode α)}
        {fn : VmM H (Except ReturnCode α)} {faults rc t},
        g (first :: (middle ++ more)) = withVariableAtPath api fn (middle ++ more) →
        (Returns (withStackVariables api stackFrame path g) ⟨stack, h, faults⟩ rc t ↔
          ∃ u, Returns (withVariableAtPath api fn more) ⟨stack', h, faults⟩ rc u ∧
            pushed.length ≤ u.stack.length ∧
            t = { u with stack := u.stack.drop pushed.length }) := by
  obtain ⟨pushed, rfl, hruns⟩ := hd.runsOver hh.view hh.arrays
  refine ⟨pushed ++ [start], by simp, fun {α g fn faults rc t} hg => ?_⟩
  rw [returns_withStackVariables_iff hparts hlocal, hg, List.length_append]
  constructor
  · intro hret
    obtain ⟨w, hw, hle, rfl⟩ := hret
    obtain ⟨u, hu, hle', rfl⟩ := (hruns α fn more faults rc w).mp hw
    rw [List.length_drop] at hle
    refine ⟨u, hu, ?_, by rw [List.drop_drop]; rfl⟩
    simp only [List.length_singleton]
    omega
  · intro hret
    obtain ⟨u, hu, hle, rfl⟩ := hret
    simp only [List.length_singleton] at hle
    refine ⟨_, (hruns α fn more faults rc _).mpr ⟨u, hu, by omega, rfl⟩, ?_, ?_⟩
    · rw [List.length_drop]
      omega
    · rw [List.drop_drop]
      rfl

end

/-! ## Listings -/

section
variable {lib : CppLib} {fuel : Nat} {stackFrame : UInt32} {path : Bytes} {first : UInt64}
variable {middle : List UInt64} {start o : SqObject} {pagination : PaginationInfo}
variable {vars : List Variable}

theorem gives_noChildren (ho : ¬ (o.type = .array ∨ o.type = .table ∨ o.type = .instance_)) :
    Gives (createChildVariables api lib (renderer api lib fuel) fuel pagination) h [o] [] h
      [o] := by
  unfold createChildVariables
  refine (gives_sqGettype rfl).bind ?_
  cases o with
  | array a => exact absurd (.inl rfl) ho
  | table a => exact absurd (.inr (.inl rfl)) ho
  | instance_ a => exact absurd (.inr (.inr rfl)) ho
  | _ => exact gives_pure _

theorem steady_createChildVariables (hv : SlotView api h (slots h)) (o : SqObject) :
    Steady (createChildVariables api lib (renderer api lib fuel) fuel pagination) h [o] := by
  by_cases ho : o.type = .array ∨ o.type = .table ∨ o.type = .instance_
  · exact (tells_createChildVariables hv ho pagination).mono fun _ _ hp => hp.1
  · exact (gives_noChildren ho).tells rfl

/-- The listing of a path is the listing of the object it opens. -/
theorem Opens.listing_iff (hh : PlainHeap api slots h)
    (hop : Opens api slots h stackFrame path first middle start o) (stack : List SqObject)
    (faults : List Fault) :
    Returns (populateStackVariables api lib (renderer api lib fuel) fuel stackFrame path
        pagination) ⟨stack, h, faults⟩ (.ok vars) ⟨stack, h, faults⟩ ↔
      Gives (createChildVariables api lib (renderer api lib fuel) fuel pagination) h [o] vars h
        [o] := by
  obtain ⟨name, hlocal⟩ := hop.isLocal
  have hparts : pathParts path = some (first :: (middle ++ [])) := by
    rw [hop.parts, List.append_nil]
  have hne : path ≠ [] := by
    rintro rfl
    cases hparts
  obtain ⟨below, hd⟩ := hop.leads.descends stack
  obtain ⟨pushed, hstack, hcommand⟩ := returns_command_iff hh hparts hlocal hd
  unfold populateStackVariables
  rw [if_neg hne, hcommand rfl]
  constructor
  · intro hret
    obtain ⟨u, hu, -, hend⟩ := hret
    have hfaults : u.faults = faults := congrArg SqVm.faults hend.symm
    obtain ⟨vars', w, hw, hpure⟩ := returns_bind_iff.mp hu
    obtain ⟨hvars, rfl⟩ := returns_pure_iff.mp hpure
    obtain rfl : vars' = vars := by simpa using hvars
    have hsteady : Steady (createChildVariables api lib (renderer api lib fuel) fuel pagination) h
        [o] := steady_createChildVariables hh.view o
    rcases hsteady with ⟨vars'', _, rfl, hgives⟩ | hslips
    · obtain ⟨rfl, -⟩ := (hgives below faults).unique hw
      exact hgives
    · have hlt := (hslips below faults).ok hw
      rw [hfaults] at hlt
      exact absurd hlt (Nat.lt_irrefl _)
  · intro hgives
    have hok : Gives (do
        return .ok (← createChildVariables api lib (renderer api lib fuel) fuel pagination) :
        VmM H (Except ReturnCode (List Variable))) h [o] (.ok vars) h [o] :=
      hgives.bind (gives_pure _)
    refine ⟨⟨o :: below, h, faults⟩, hok below faults, ?_, ?_⟩
    · rw [hstack, List.length_append]
      omega
    · rw [hstack, List.drop_left]

/-- What a path lists, `CreateChildVariables` has returned for the object it opens. -/
theorem Opens.returned (hh : PlainHeap api slots h)
    (hop : Opens api slots h stackFrame path first middle start o) {stack : List SqObject}
    {faults : List Fault} {t : SqVm H}
    (hlisted : Returns (populateStackVariables api lib (renderer api lib fuel) fuel stackFrame path
      pagination) ⟨stack, h, faults⟩ (.ok vars) t) :
    ∃ below u, Returns (createChildVariables api lib (renderer api lib fuel) fuel pagination)
      ⟨o :: below, h, faults⟩ vars u := by
  obtain ⟨name, hlocal⟩ := hop.isLocal
  have hparts : pathParts path = some (first :: (middle ++ [])) := by
    rw [hop.parts, List.append_nil]
  have hne : path ≠ [] := by
    rintro rfl
    cases hparts
  obtain ⟨below, hd⟩ := hop.leads.descends stack
  obtain ⟨pushed, -, hcommand⟩ := returns_command_iff hh hparts hlocal hd
  unfold populateStackVariables at hlisted
  rw [if_neg hne, hcommand rfl] at hlisted
  obtain ⟨u, hu, -, -⟩ := hlisted
  obtain ⟨vars', w, hw, hpure⟩ := returns_bind_iff.mp hu
  obtain ⟨hvars, -⟩ := returns_pure_iff.mp hpure
  obtain rfl : vars' = vars := by simpa using hvars
  exact ⟨below, w, hw⟩

/-- Locals are listed as not editable. -/
theorem rootVariables_notEditable (r : Renderer H) (frame n nSeq : Nat) (s : SqVm H) :
    Ends (rootVariablesLoop api r frame n nSeq) s
      (fun vars _ => ∀ variable_ ∈ vars, variable_.editable = false) fun _ _ => True := by
  induction n generalizing nSeq s with
  | zero =>
    refine ends_pure fun variable_ hmem => ?_
    cases hmem
  | succ n ih =>
    unfold rootVariablesLoop
    refine Ends.bind (ends_trivial _ s) fun localName t _ => ?_
    cases localName with
    | none =>
      refine ends_pure fun variable_ hmem => ?_
      cases hmem
    | some localName =>
      refine Ends.bind (ends_trivial _ t) fun shown u _ => ?_
      refine Ends.bind (ends_trivial _ u) fun _ w _ => ?_
      refine (ih (nSeq + 1) w).bind fun rest x hrest => ?_
      refine ends_pure fun variable_ hmem => ?_
      rcases List.mem_cons.mp hmem with rfl | hmem
      · rfl
      · exact hrest variable_ hmem

/-- A path with parts that lists anything opens an array, a table or an instance. -/
theorem opens_of_listed (hh : PlainHeap api slots h) (hout : OutOfRange api slots h)
    (hne : path ≠ []) {stack : List SqObject} {faults : List Fault} {t : SqVm H}
    (hlisted : Returns (populateStackVariables api lib (renderer api lib fuel) fuel stackFrame path
      pagination) ⟨stack, h, faults⟩ (.ok vars) t) (hvars : vars ≠ []) :
    ∃ first middle start o, Opens api slots h stackFrame path first middle start o ∧
      (o.type = .array ∨ o.type = .table ∨ o.type = .instance_) := by
  cases hparts : pathParts path with
  | none =>
    unfold populateStackVariables at hlisted
    rw [if_neg hne] at hlisted
    exact absurd hlisted (not_ok_of_noParts hparts)
  | some parts =>
    obtain ⟨first, middle, rfl⟩ := pathParts_cons hparts
    cases hlocal : api.getlocal h stackFrame.toNat first.toNat with
    | none =>
      have hnone := (gives_sqGetlocal api stackFrame.toNat first.toNat : Gives _ h [] _ _ _)
      rw [hlocal] at hnone
      unfold populateStackVariables withStackVariables at hlisted
      rw [if_neg hne, if_neg hne, hparts] at hlisted
      obtain ⟨_, u, hu, hrest⟩ := returns_bind_iff.mp hlisted
      obtain ⟨rfl, -⟩ := (hnone stack faults).unique hu
      cases (returns_pure_iff.mp hrest).1
    | some p =>
      obtain ⟨name, start⟩ := p
      have hdec : ∀ part ∈ middle, Decoded part := fun part hpart =>
        decoded_of_pathParts hparts part (List.mem_cons_of_mem first hpart)
      rcases leadsTo_or_refused hh hout hdec start with ⟨o, hleads⟩ | hrefused
      · have hop : Opens api slots h stackFrame path first middle start o :=
          ⟨hparts, ⟨name, hlocal⟩, hleads⟩
        refine ⟨first, middle, start, o, hop, Classical.byContradiction fun ho => ?_⟩
        have hgives : Gives (createChildVariables api lib (renderer api lib fuel) fuel pagination) h
            [o] [] h [o] := gives_noChildren ho
        have hnone := (hop.listing_iff hh stack faults).mpr hgives
        obtain ⟨hnil, -⟩ := hnone.unique hlisted
        exact hvars (Except.ok.inj hnil).symm
      · have herror : Gives (createChildVariablesFromIterable api lib (renderer api lib fuel) fuel
            middle pagination) h [start] (.error .invalidParameter) h [start] := hrefused _ _
        have hrefuses : Gives (withStackVariables api stackFrame path fun parts =>
            createChildVariablesFromIterable api lib (renderer api lib fuel) fuel parts.tail
              pagination) h [] (.error .invalidParameter) h [] :=
          gives_withStackVariables hparts hlocal herror
        unfold populateStackVariables at hlisted
        rw [if_neg hne] at hlisted
        obtain ⟨hcontra, -⟩ := (hrefuses stack faults).unique hlisted
        cases hcontra

/-- A path that lists an editable variable opens an array, a table or an instance. -/
theorem opens_of_editable (hh : PlainHeap api slots h) (hout : OutOfRange api slots h)
    {stack : List SqObject} {faults : List Fault} {t : SqVm H}
    (hlisted : Returns (populateStackVariables api lib (renderer api lib fuel) fuel stackFrame path
      pagination) ⟨stack, h, faults⟩ (.ok vars) t) {variable_ : Variable} (hmem : variable_ ∈ vars)
    (hedit : variable_.editable = true) :
    ∃ first middle start o, Opens api slots h stackFrame path first middle start o ∧
      (o.type = .array ∨ o.type = .table ∨ o.type = .instance_) := by
  have hne : path ≠ [] := by
    rintro rfl
    obtain ⟨vars', u, hu, hpure⟩ := returns_bind_iff.mp hlisted
    obtain ⟨hvars, -⟩ := returns_pure_iff.mp hpure
    obtain rfl : vars' = vars := by simpa using hvars
    have hnot := (rootVariables_notEditable _ _ _ _ _).ok hu variable_ hmem
    rw [hedit] at hnot
    cases hnot
  exact opens_of_listed hh hout hne hlisted (List.ne_nil_of_mem hmem)

end

end

end Sdb.L4
