import Sdb.L4Display.ClassScan

/-!
# Finding a class by name

`ToClassFullName` scans the root table and looks the class up; else it goes through
the locals of all frames, scans the tables among them, and returns the name of the
first local that is the class itself.

* `toClassFullName_iff`: the name it returns;
* `class_found_iff`: when it finds a class that can be named.
-/
namespace Sdb.L4

open Sdb.L1 Sdb.L3 Sdb.Exec Sdb.Scan Relation

section
variable {H : Type} (api : SqApi H) (h : H)
variable (slots : SqObject → List (Option (SqObject × SqObject)))
variable (frames : List (List (Bytes × SqObject)))

/-- The VM's frames with their locals. -/
structure FrameView : Prop where
  stackinfos : ∀ level, api.stackinfos h level = decide (level < frames.length)
  getlocal : ∀ level nSeq, api.getlocal h level nSeq = (frames[level]?).bind (·[nSeq]?)

/-! ## The loops over the locals -/

variable (hash : UInt64)

/-- The loops pass these locals: none is the class, and the tables are scanned. -/
inductive Passes : List (Bytes × SqObject) → ClassNames → ClassNames → Prop where
  | nil {names : ClassNames} : Passes [] names names
  | table {name : Bytes} {a : Nat} {ls : List (Bytes × SqObject)} {names names₁ names' : ClassNames}
    (hscan : ScansTables api h slots [] (tableCells api h slots (.table a)) names names₁)
    (hrest : Passes ls names₁ names') : Passes ((name, .table a) :: ls) names names'
  | class_ {name : Bytes} {a : Nat} {ls : List (Bytes × SqObject)} {names names' : ClassNames}
    (hother : api.gethash h (.class_ a) ≠ hash) (hrest : Passes ls names names') :
    Passes ((name, .class_ a) :: ls) names names'
  | skip {name : Bytes} {o : SqObject} {ls : List (Bytes × SqObject)} {names names' : ClassNames}
    (htable : o.type ≠ .table) (hclass : o.type ≠ .class_) (hrest : Passes ls names names') :
    Passes ((name, o) :: ls) names names'

/-- The loops come to a local that is the class. -/
def FindsLocal (ls : List (Bytes × SqObject)) (names : ClassNames) (found : Bytes) : Prop :=
  ∃ pre name a post names', ls = pre ++ (name, .class_ a) :: post ∧
    Passes api h slots hash pre names names' ∧ api.gethash h (.class_ a) = hash ∧
    found = cstr name

variable {api h slots frames hash} {ls ls' : List (Bytes × SqObject)}
  {names names' names₁ : ClassNames} {found : Bytes}

theorem Passes.append (hp : Passes api h slots hash ls names names₁)
    (hp' : Passes api h slots hash ls' names₁ names') :
    Passes api h slots hash (ls ++ ls') names names' := by
  induction hp with
  | nil => exact hp'
  | table hscan _ ih => exact .table hscan (ih hp')
  | class_ hother _ ih => exact .class_ hother (ih hp')
  | skip htable hclass _ ih => exact .skip htable hclass (ih hp')

theorem Passes.split (hp : Passes api h slots hash (ls ++ ls') names names') :
    ∃ names₁, Passes api h slots hash ls names names₁ ∧
      Passes api h slots hash ls' names₁ names' := by
  induction ls generalizing names with
  | nil => exact ⟨names, .nil, hp⟩
  | cons l ls ih =>
    cases hp with
    | table hscan hrest =>
      obtain ⟨names₁, hp, hp'⟩ := ih hrest
      exact ⟨names₁, .table hscan hp, hp'⟩
    | class_ hother hrest =>
      obtain ⟨names₁, hp, hp'⟩ := ih hrest
      exact ⟨names₁, .class_ hother hp, hp'⟩
    | skip htable hclass hrest =>
      obtain ⟨names₁, hp, hp'⟩ := ih hrest
      exact ⟨names₁, .skip htable hclass hp, hp'⟩

theorem FindsLocal.after (hp : Passes api h slots hash ls names names₁)
    (hf : FindsLocal api h slots hash ls' names₁ found) :
    FindsLocal api h slots hash (ls ++ ls') names found := by
  obtain ⟨pre, name, a, post, names', rfl, hpre, hhash, rfl⟩ := hf
  exact ⟨ls ++ pre, name, a, post, names', by simp, hp.append hpre, hhash, rfl⟩

theorem FindsLocal.more (hf : FindsLocal api h slots hash ls names found) :
    FindsLocal api h slots hash (ls ++ ls') names found := by
  obtain ⟨pre, name, a, post, names', rfl, hpre, hhash, rfl⟩ := hf
  exact ⟨pre, name, a, post ++ ls', names', by simp, hpre, hhash, rfl⟩

/-- In the first of two lists, or else in the second. -/
theorem FindsLocal.split (hf : FindsLocal api h slots hash (ls ++ ls') names found) :
    FindsLocal api h slots hash ls names found ∨
      ∃ names₁, Passes api h slots hash ls names names₁ ∧
        FindsLocal api h slots hash ls' names₁ found := by
  obtain ⟨pre, name, a, post, names', hls, hpre, hhash, rfl⟩ := hf
  rcases List.append_eq_append_iff.mp hls with ⟨as, rfl, rfl⟩ | ⟨bs, rfl, hbs⟩
  · obtain ⟨names₁, hp, hp'⟩ := hpre.split
    exact .inr ⟨names₁, hp, as, name, a, post, names', rfl, hp', hhash, rfl⟩
  · cases bs with
    | nil =>
      rw [List.append_nil]
      exact .inr ⟨names', hpre, [], name, a, post, names', hbs.symm, .nil, hhash, rfl⟩
    | cons b bs =>
      obtain ⟨rfl, -⟩ := List.cons.inj hbs
      exact .inl ⟨pre, name, a, bs, names', rfl, hpre, hhash, rfl⟩

variable (api h slots hash) in
/-- What the loop over the locals of one frame returns, from these locals on. -/
def LocalsOutcome (ls : List (Bytes × SqObject)) (names : ClassNames) :
    Option Bytes × ClassNames → Prop
  | (none, names') => Passes api h slots hash ls names names'
  | (some found, _) => FindsLocal api h slots hash ls names found

theorem LocalsOutcome.after {r : Option Bytes × ClassNames}
    (hp : Passes api h slots hash ls names names₁)
    (hr : LocalsOutcome api h slots hash ls' names₁ r) :
    LocalsOutcome api h slots hash (ls ++ ls') names r := by
  obtain ⟨_ | found, names'⟩ := r
  · exact hp.append hr
  · exact FindsLocal.after hp hr

theorem drop_eq_cons {α : Type} {l tail : List α} {j : Nat} {x : α} (hd : l.drop j = x :: tail) :
    l[j]? = some x ∧ l.drop (j + 1) = tail := by
  have hget : l[j]? = (l.drop j)[0]? := by simp [List.getElem?_drop]
  have htail : l.drop (j + 1) = (l.drop j).tail := by simp [List.tail_drop]
  rw [hget, htail, hd]
  exact ⟨rfl, rfl⟩

section
variable (hv : TableView api h slots) (hf : FrameView api h frames) {top : List SqObject}
  {level : Nat} {frame : List (Bytes × SqObject)}

include hv hf

theorem settles_localsLoop (hframe : frames[level]? = some frame) (n j : Nat)
    (names : ClassNames) :
    Settles (localsLoop api level hash n j names) h top fun r t =>
      t = top ∧ LocalsOutcome api h slots hash (frame.drop j) names r := by
  induction n generalizing j names with
  | zero => exact settles_throw _
  | succ n ih =>
    unfold localsLoop
    refine (gives_sqGetlocal api level j).bind_settles ?_
    have hlocal : api.getlocal h level j = frame[j]? := by
      rw [hf.getlocal, hframe, Option.bind_some]
    rw [hlocal]
    cases hdrop : frame.drop j with
    | nil =>
      have hnone : frame[j]? = none :=
        List.getElem?_eq_none (List.drop_eq_nil_iff.mp hdrop)
      rw [hnone]
      exact (gives_pure _).settles ⟨rfl, .nil⟩
    | cons l ls =>
      obtain ⟨hget, htail⟩ := drop_eq_cons hdrop
      obtain ⟨name, o⟩ := l
      rw [hget]
      -- the local is passed, and the loop goes on
      have hrest : ∀ names₁, Passes api h slots hash [(name, o)] names names₁ →
          Settles (sqPoptop >>= fun _ => localsLoop api level hash n (j + 1) names₁) h (o :: top)
            fun r t => t = top ∧ LocalsOutcome api h slots hash ((name, o) :: ls) names r := by
        intro names₁ hp
        refine gives_sqPoptop.bind_settles ((ih (j + 1) names₁).mono fun r t hr => ⟨hr.1, ?_⟩)
        rw [htail] at hr
        exact LocalsOutcome.after hp hr.2
      refine (gives_sqGettype rfl).bind_settles ?_
      by_cases htable : o.type = .table
      · rw [if_pos htable]
        cases o with
        | table a =>
          refine ((settles_getClassesFullNameHelper hv n [] names a).frame top).bind ?_
          intro names₁ t ht
          obtain ⟨_, rfl, rfl, hscan⟩ := ht
          exact hrest names₁ (.table hscan .nil)
        | _ => cases htable
      · rw [if_neg htable]
        by_cases hclass : o.type = .class_
        · rw [if_pos hclass]
          cases o with
          | class_ a =>
            refine (gives_sqGethash api rfl).bind_settles ?_
            by_cases hhash : api.gethash h (.class_ a) = hash
            · rw [if_pos hhash]
              exact gives_sqPoptop.bind_settles ((gives_pure _).settles
                ⟨rfl, [], name, a, ls, names, rfl, .nil, hhash, rfl⟩)
            · rw [if_neg hhash]
              exact hrest names (.class_ hhash .nil)
          | _ => cases hclass
        · rw [if_neg hclass]
          exact hrest names (.skip htable hclass .nil)

theorem settles_framesLoop (n level : Nat) (names : ClassNames) :
    Settles (framesLoop api hash n level names) h top fun found t =>
      t = top ∧ FindsLocal api h slots hash (frames.drop level).flatten names found := by
  induction n generalizing level names with
  | zero => exact settles_throw _
  | succ n ih =>
    unfold framesLoop
    refine (gives_sqStackinfos api level).bind_settles ?_
    rw [hf.stackinfos]
    by_cases hlevel : level < frames.length
    · rw [if_pos (decide_eq_true hlevel)]
      have hframe : frames[level]? = some frames[level] := List.getElem?_eq_getElem hlevel
      have hflat : (frames.drop level).flatten =
          frames[level] ++ (frames.drop (level + 1)).flatten := by
        rw [List.drop_eq_getElem_cons hlevel, List.flatten_cons]
      rw [hflat]
      refine (settles_localsLoop hv hf hframe n 0 names).bind ?_
      intro r t hr
      obtain ⟨rfl, hr⟩ := hr
      rw [List.drop_zero] at hr
      obtain ⟨_ | found, names₁⟩ := r
      · exact (ih (level + 1) names₁).mono fun found t hfound => ⟨hfound.1, hfound.2.after hr⟩
      · exact (gives_pure _).settles ⟨rfl, FindsLocal.more hr⟩
    · rw [if_neg (by simpa using hlevel)]
      exact .inr fun _ _ => ⟨.runtimeError "Unknown class", _, rfl⟩

/-- The loop gets past locals that it passes. -/
theorem gives_localsLoop_passes (hframe : frames[level]? = some frame)
    {pre post : List (Bytes × SqObject)} (hp : Passes api h slots hash pre names names₁)
    {r : Option Bytes × ClassNames} {j : Nat} (hdrop : frame.drop j = pre ++ post)
    (hrest : ∃ N, ∀ n, N < n →
      Gives (localsLoop api level hash n (j + pre.length) names₁) h top r h top) :
    ∃ N, ∀ n, N < n → Gives (localsLoop api level hash n j names) h top r h top := by
  induction hp generalizing j with
  | nil => exact hrest
  | @table name a ls names names₁ names' hscan _ ih =>
    obtain ⟨hget, htail⟩ := drop_eq_cons hdrop
    obtain ⟨N, hN⟩ := ih htail (by simpa [Nat.add_assoc, Nat.add_comm 1] using hrest)
    obtain ⟨M, hM⟩ := gives_getClassesFullNameHelper hv hscan
    refine ⟨max N M + 1, fun n hn => ?_⟩
    obtain ⟨n, rfl⟩ := Nat.exists_eq_succ_of_ne_zero (Nat.ne_zero_of_lt hn)
    have hlocal : api.getlocal h level j = some (name, .table a) := by
      rw [hf.getlocal, hframe, Option.bind_some, hget]
    unfold localsLoop
    refine (gives_sqGetlocal api level j).bind ?_
    rw [hlocal]
    refine (gives_sqGettype rfl).bind ?_
    rw [if_pos (show (SqObject.table a).type = .table from rfl)]
    exact ((hM n (by omega)).frame top).bind (gives_sqPoptop.bind (hN n (by omega)))
  | @class_ name a ls names names' hother _ ih =>
    obtain ⟨hget, htail⟩ := drop_eq_cons hdrop
    obtain ⟨N, hN⟩ := ih htail (by simpa [Nat.add_assoc, Nat.add_comm 1] using hrest)
    refine ⟨N + 1, fun n hn => ?_⟩
    obtain ⟨n, rfl⟩ := Nat.exists_eq_succ_of_ne_zero (Nat.ne_zero_of_lt hn)
    have hlocal : api.getlocal h level j = some (name, .class_ a) := by
      rw [hf.getlocal, hframe, Option.bind_some, hget]
    unfold localsLoop
    refine (gives_sqGetlocal api level j).bind ?_
    rw [hlocal]
    refine (gives_sqGettype rfl).bind ?_
    rw [if_neg (show ¬ (SqObject.class_ a).type = .table by simp [SqObject.type]),
      if_pos (show (SqObject.class_ a).type = .class_ from rfl)]
    refine (gives_sqGethash api rfl).bind ?_
    rw [if_neg hother]
    exact gives_sqPoptop.bind (hN n (by omega))
  | @skip name o ls names names' htable hclass _ ih =>
    obtain ⟨hget, htail⟩ := drop_eq_cons hdrop
    obtain ⟨N, hN⟩ := ih htail (by simpa [Nat.add_assoc, Nat.add_comm 1] using hrest)
    refine ⟨N + 1, fun n hn => ?_⟩
    obtain ⟨n, rfl⟩ := Nat.exists_eq_succ_of_ne_zero (Nat.ne_zero_of_lt hn)
    have hlocal : api.getlocal h level j = some (name, o) := by
      rw [hf.getlocal, hframe, Option.bind_some, hget]
    unfold localsLoop
    refine (gives_sqGetlocal api level j).bind ?_
    rw [hlocal]
    refine (gives_sqGettype rfl).bind ?_
    rw [if_neg htable, if_neg hclass]
    exact gives_sqPoptop.bind (hN n (by omega))

theorem gives_framesLoop {fs : List (List (Bytes × SqObject))} (hfs : frames.drop level = fs)
    (hfind : FindsLocal api h slots hash fs.flatten names found) :
    ∃ N, ∀ n, N < n → Gives (framesLoop api hash n level names) h top found h top := by
  induction fs generalizing level names with
  | nil =>
    obtain ⟨pre, name, a, post, names', hls, -⟩ := hfind
    simp at hls
  | cons frame fs ih =>
    obtain ⟨hframe, htail⟩ := drop_eq_cons hfs
    have hlevel : api.stackinfos h level = true := by
      rw [hf.stackinfos]
      exact decide_eq_true (List.getElem?_eq_some_iff.mp hframe).1
    rw [List.flatten_cons] at hfind
    rcases hfind.split with
      ⟨pre, name, a, post, names₁, rfl, hpre, hhash, rfl⟩ | ⟨names₁, hp, hfind⟩
    · -- in this frame
      have hclass : ∃ N, ∀ n, N < n → Gives (localsLoop api level hash n (0 + pre.length) names₁)
          h top (some (cstr name), names₁) h top := by
        refine ⟨0, fun n hn => ?_⟩
        obtain ⟨n, rfl⟩ := Nat.exists_eq_succ_of_ne_zero (Nat.ne_of_gt hn)
        have hlocal : api.getlocal h level (0 + pre.length) = some (name, .class_ a) := by
          rw [hf.getlocal, hframe, Option.bind_some]
          simp
        unfold localsLoop
        refine (gives_sqGetlocal api level _).bind ?_
        rw [hlocal]
        refine (gives_sqGettype rfl).bind ?_
        rw [if_neg (show ¬ (SqObject.class_ a).type = .table by simp [SqObject.type]),
          if_pos (show (SqObject.class_ a).type = .class_ from rfl)]
        refine (gives_sqGethash api rfl).bind ?_
        rw [if_pos hhash]
        exact gives_sqPoptop.bind (gives_pure _)
      obtain ⟨N, hN⟩ := gives_localsLoop_passes hv hf hframe hpre List.drop_zero hclass
      refine ⟨N + 1, fun n hn => ?_⟩
      obtain ⟨n, rfl⟩ := Nat.exists_eq_succ_of_ne_zero (Nat.ne_zero_of_lt hn)
      unfold framesLoop
      refine (gives_sqStackinfos api level).bind ?_
      rw [hlevel, if_pos rfl]
      exact (hN n (by omega)).bind (gives_pure _)
    · -- in a later frame
      have hend : ∃ N, ∀ n, N < n → Gives (localsLoop api level hash n (0 + frame.length) names₁)
          h top (none, names₁) h top := by
        refine ⟨0, fun n hn => ?_⟩
        obtain ⟨n, rfl⟩ := Nat.exists_eq_succ_of_ne_zero (Nat.ne_of_gt hn)
        have hlocal : api.getlocal h level (0 + frame.length) = none := by
          rw [hf.getlocal, hframe, Option.bind_some]
          simp
        unfold localsLoop
        refine (gives_sqGetlocal api level _).bind ?_
        rw [hlocal]
        exact gives_pure _
      have hall : frame.drop 0 = frame ++ [] := by simp
      obtain ⟨N, hN⟩ := gives_localsLoop_passes hv hf hframe hp hall hend
      obtain ⟨M, hM⟩ := ih htail hfind
      refine ⟨max N M + 1, fun n hn => ?_⟩
      obtain ⟨n, rfl⟩ := Nat.exists_eq_succ_of_ne_zero (Nat.ne_zero_of_lt hn)
      unfold framesLoop
      refine (gives_sqStackinfos api level).bind ?_
      rw [hlevel, if_pos rfl]
      exact (hN n (by omega)).bind (hM n (by omega))

end

/-! ## The name that is returned -/

variable (api h) in
/-- `ToClassFullName` returns this name for the class on top of the stack. -/
def NamedAs (c : Nat) (found : Bytes) : Prop :=
  ∀ rest faults, ∃ fuel t,
    (toClassFullName api fuel).run ⟨.class_ c :: rest, h, faults⟩ = .ok found t

variable (api h slots frames) in
/-- The name under which the scan of the root table has recorded the class, or else the
name of the first local that is the class. -/
def LookedUp (c : Nat) (found : Bytes) : Prop :=
  ∃ names, ScansTables api h slots [] (tableCells api h slots (.table (api.roottable h)))
      (fun _ => none) names ∧
    (names (api.gethash h (.class_ c)) = some found ∨
      (names (api.gethash h (.class_ c)) = none ∧
        FindsLocal api h slots (api.gethash h (.class_ c)) frames.flatten names found))

theorem settles_lookedUp (hv : TableView api h slots) (hf : FrameView api h frames) (fuel c : Nat) :
    Settles (toClassFullName api fuel) h [.class_ c] fun found t =>
      t = [.class_ c] ∧ LookedUp api h slots frames c found := by
  unfold toClassFullName
  refine (gives_sqGettype rfl).bind_settles ?_
  rw [if_neg (show ¬ (SqObject.class_ c).type ≠ .class_ by simp [SqObject.type])]
  refine (gives_sqGethash api rfl).bind_settles ?_
  refine (gives_sqPushroottable api).bind_settles ?_
  refine ((settles_getClassesFullNameHelper hv fuel [] _ _).frame [.class_ c]).bind ?_
  intro names t ht
  obtain ⟨_, rfl, rfl, hscan⟩ := ht
  refine gives_sqPoptop.bind_settles ?_
  cases hname : names (api.gethash h (.class_ c)) with
  | some name => exact (gives_pure _).settles ⟨rfl, names, hscan, .inl hname⟩
  | none =>
    exact (settles_framesLoop hv hf fuel 0 names).mono fun found t hfound =>
      ⟨hfound.1, names, hscan, .inr ⟨hname, by simpa using hfound.2⟩⟩

theorem gives_lookedUp (hv : TableView api h slots) (hf : FrameView api h frames) {c : Nat}
    (hl : LookedUp api h slots frames c found) :
    ∃ fuel, Gives (toClassFullName api fuel) h [.class_ c] found h [.class_ c] := by
  obtain ⟨names, hscan, hname⟩ := hl
  obtain ⟨N, hN⟩ := gives_getClassesFullNameHelper hv hscan
  have hframes : ∃ M, ∀ n, M < n → names (api.gethash h (.class_ c)) = none →
      Gives (framesLoop api (api.gethash h (.class_ c)) n 0 names) h [.class_ c] found h
        [.class_ c] := by
    rcases hname with hname | ⟨-, hfind⟩
    · refine ⟨0, fun n _ hnone => ?_⟩
      rw [hname] at hnone
      cases hnone
    · obtain ⟨M, hM⟩ := gives_framesLoop hv hf List.drop_zero hfind
      exact ⟨M, fun n hn _ => hM n hn⟩
  obtain ⟨M, hM⟩ := hframes
  refine ⟨max N M + 1, ?_⟩
  unfold toClassFullName
  refine (gives_sqGettype rfl).bind ?_
  rw [if_neg (show ¬ (SqObject.class_ c).type ≠ .class_ by simp [SqObject.type])]
  refine (gives_sqGethash api rfl).bind ?_
  refine (gives_sqPushroottable api).bind ?_
  refine ((hN _ (by omega)).frame [.class_ c]).bind (gives_sqPoptop.bind ?_)
  rcases hname with hname | ⟨hnone, -⟩
  · rw [hname]
    exact gives_pure _
  · rw [hnone]
    exact hM _ (by omega) hnone

theorem toClassFullName_iff (hv : TableView api h slots) (hf : FrameView api h frames) (c : Nat)
    (found : Bytes) : NamedAs api h c found ↔ LookedUp api h slots frames c found := by
  constructor
  · intro hnamed
    obtain ⟨fuel, t, hrun⟩ := hnamed [] []
    rcases settles_lookedUp hv hf fuel c with ⟨found', _, ⟨rfl, hout⟩, hgives⟩ | hthrow
    · obtain ⟨rfl, -⟩ := (hgives [] []).unique hrun
      exact hout
    · obtain ⟨e, u, hu⟩ := hthrow [] []
      rw [List.append_nil, hrun] at hu
      cases hu
  · intro hl rest faults
    obtain ⟨fuel, hgives⟩ := gives_lookedUp hv hf hl
    exact ⟨fuel, _, hgives rest faults⟩

/-! ## Names of a class -/

section
variable (api h slots frames)

/-- Along these keys one comes to the class, through tables. -/
inductive ClassAt : SqObject → List Bytes → Nat → Prop where
  | here {o : SqObject} {key : Bytes} {c : Nat} (hslot : some (.string key, .class_ c) ∈ slots o) :
    ClassAt o [key] c
  | inside {o : SqObject} {key : Bytes} {a : Nat} {keys : List Bytes} {c : Nat}
    (hslot : some (.string key, .table a) ∈ slots o) (hkeys : ClassAt (.table a) keys c) :
    ClassAt o (key :: keys) c

def dotted (keys : List Bytes) : Bytes := (ascii ".").intercalate keys

/-- A dotted name along which the class is found: from the root table, as a local, or
from a table that is a local. -/
inductive NameOf (c : Nat) : Bytes → Prop where
  | root {keys : List Bytes} (hkeys : ClassAt slots (.table (api.roottable h)) keys c) :
    NameOf c (dotted keys)
  | isLocal {name : Bytes} (hlocal : (name, .class_ c) ∈ frames.flatten) : NameOf c (cstr name)
  | inLocal {name : Bytes} {a : Nat} {keys : List Bytes}
    (hlocal : (name, .table a) ∈ frames.flatten) (hkeys : ClassAt slots (.table a) keys c) :
    NameOf c (dotted (cstr name :: keys))

/-- The class is the value of a slot or a local. -/
def Occurs (c : Nat) : Prop :=
  (∃ o key, some (key, .class_ c) ∈ slots o) ∨ ∃ name, (name, .class_ c) ∈ frames.flatten

/-- A slot with a table. -/
def TableSlot (o u : SqObject) : Prop := ∃ key a, some (key, .table a) ∈ slots o ∧ u = .table a

/-- A finite heap whose tables form no cycle, and whose classes have hashes of their own. -/
structure ClassHeap (G : Set SqObject) : Prop where
  view : TableView api h slots
  frameView : FrameView api h frames
  graph : TableGraph slots G
  root : .table (api.roottable h) ∈ G
  locals : ∀ name a, (name, .table a) ∈ frames.flatten → .table a ∈ G
  acyclic : ∀ o, ¬ TransGen (TableSlot slots) o o
  hashes : ∀ c c', Occurs slots frames c → Occurs slots frames c' →
    api.gethash h (.class_ c) = api.gethash h (.class_ c') → c = c'

/-- `ToClassFullName` returns a name of the class. -/
def FoundByName (c : Nat) : Prop :=
  ∃ found, NamedAs api h c found ∧ NameOf api h slots frames c found

/-! ## When a class is found -/

/-- The loops over the locals scan those that are tables. -/
def localCell (l : Bytes × SqObject) : ClassCell :=
  match l.2 with
  | .table a => .link [] (.table a)
  | _ => .skip

/-- The root table, and the tables among these locals. -/
def scannedCells (ls : List (Bytes × SqObject)) : List ClassCell :=
  .link [] (.table (api.roottable h)) :: ls.map localCell

/-- The scan comes to no class and no table under a key that is no string. -/
def StringKeyed (cs : List ClassCell) : Prop :=
  ∀ n cs' names, ¬ Comes (tableCells api h slots) fullName [] cs (fun _ => none) n (.stuck :: cs')
    names

/-- The scan of the root table comes to a slot with the class that is not recorded yet,
by keys that make up this name. -/
def ComesTo (c : Nat) (found : Bytes) : Prop :=
  ∃ n key cs names, Comes (tableCells api h slots) fullName []
      (tableCells api h slots (.table (api.roottable h))) (fun _ => none) n
      (.mark key (api.gethash h (.class_ c)) :: cs) names ∧
    names (api.gethash h (.class_ c)) = none ∧ found = fullName n key

/-- No key is empty or has a NUL. -/
def PlainKeys : Prop := ∀ o key v, some (.string key, v) ∈ slots o → key ≠ [] ∧ 0 ∉ key

/-- The root table's scan comes to the class, and its keys make up a name of it. -/
def FoundInRoot (c : Nat) : Prop :=
  StringKeyed api h slots (tableCells api h slots (.table (api.roottable h))) ∧
    ∃ found, ComesTo api h slots c found ∧ NameOf api h slots frames c found

/-- The root table's scan does not come to the class; it is a local, and the scans up to
there come to no other keys than strings. -/
def FoundAsLocal (c : Nat) : Prop :=
  (∀ found, ¬ ComesTo api h slots c found) ∧
    ∃ pre name post, frames.flatten = pre ++ (name, .class_ c) :: post ∧
      (∀ name', (name', .class_ c) ∉ pre) ∧ StringKeyed api h slots (scannedCells api h pre)

end

/-- With no cycle a scan only has to find string keys. -/
theorem smooth_iff (hacyclic : ∀ o, ¬ TransGen (TableSlot slots) o o) {cs : List ClassCell} :
    Smooth (tableCells api h slots) fullName [] cs (fun _ => none) ↔
      StringKeyed api h slots cs := by
  refine ⟨fun hsmooth => hsmooth.notStuck, fun hkeys => ⟨hkeys, ?_⟩⟩
  intro n k v cs names _ hcycle
  refine hacyclic v (hcycle.lift id fun o u hu => ?_)
  obtain ⟨pre, k, post, hcells, -⟩ := hu
  have hmem : .link k u ∈ tableCells api h slots o := by simp [hcells]
  obtain ⟨slot, hslot, hcell⟩ := mem_tableCells.mp hmem
  obtain ⟨a, rfl, rfl⟩ := slotCell_eq_link hcell
  exact ⟨_, a, hslot, rfl⟩

/-- The loops pass locals by scanning the tables among them. -/
theorem passes_iff : Passes api h slots hash ls names names' ↔
    (∀ name a, (name, .class_ a) ∈ ls → api.gethash h (.class_ a) ≠ hash) ∧
      ScansTables api h slots [] (ls.map localCell) names names' := by
  constructor
  · intro hp
    induction hp with
    | nil => exact ⟨by simp, .done⟩
    | table hscan _ ih => exact ⟨by simpa using ih.1, .into hscan ih.2⟩
    | class_ hother _ ih =>
      refine ⟨fun name a hm => ?_, .skip ih.2⟩
      rcases List.mem_cons.mp hm with heq | hm
      · obtain ⟨-, heq⟩ := Prod.mk.inj heq
        rw [heq]
        exact hother
      · exact ih.1 name a hm
    | @skip name o ls names names' htable hclass _ ih =>
      have hcell : localCell (name, o) = .skip := by
        cases o <;> first | rfl | exact absurd rfl htable
      refine ⟨fun name' a hm => ?_, ?_⟩
      · rcases List.mem_cons.mp hm with heq | hm
        · obtain ⟨-, rfl⟩ := Prod.mk.inj heq
          exact absurd rfl hclass
        · exact ih.1 name' a hm
      · rw [List.map_cons, hcell]
        exact .skip ih.2
  · intro hboth
    obtain ⟨hother, hscan⟩ := hboth
    induction ls generalizing names with
    | nil =>
      cases hscan
      exact .nil
    | cons l ls ih =>
      obtain ⟨name, o⟩ := l
      have hrest : ∀ name a, (name, .class_ a) ∈ ls → api.gethash h (.class_ a) ≠ hash :=
        fun name a hm => hother name a (List.mem_cons_of_mem _ hm)
      cases o with
      | table a =>
        cases hscan with
        | into hinner hscan => exact .table hinner (ih hrest hscan)
      | class_ a =>
        cases hscan with
        | skip hscan => exact .class_ (hother name a List.mem_cons_self) (ih hrest hscan)
      | _ =>
        cases hscan with
        | skip hscan =>
          refine .skip ?_ ?_ (ih hrest hscan)
          · simp [SqObject.type]
          · simp [SqObject.type]

section
variable {G : Set SqObject} (hc : ClassHeap api h slots frames G) {c : Nat}

include hc

/-- The first local that is the class, by its hash. -/
theorem findsLocal_iff (hoccurs : Occurs slots frames c) :
    FindsLocal api h slots (api.gethash h (.class_ c)) frames.flatten names found ↔
      ∃ pre name post, frames.flatten = pre ++ (name, .class_ c) :: post ∧ found = cstr name ∧
        (∀ name', (name', .class_ c) ∉ pre) ∧
        ∃ names', ScansTables api h slots [] (pre.map localCell) names names' := by
  constructor
  · intro hfind
    obtain ⟨pre, name, a, post, names', hls, hpre, hhash, rfl⟩ := hfind
    obtain ⟨hother, hscan⟩ := passes_iff.mp hpre
    obtain rfl := hc.hashes a c (.inr ⟨name, by simp [hls]⟩) hoccurs hhash
    exact ⟨pre, name, post, hls, rfl, fun name' hm => hother name' a hm rfl, names', hscan⟩
  · intro hfind
    obtain ⟨pre, name, post, hls, rfl, hnot, names', hscan⟩ := hfind
    refine ⟨pre, name, c, post, names', hls, passes_iff.mpr ⟨fun name' a hm hhash => ?_, hscan⟩,
      rfl, rfl⟩
    obtain rfl := hc.hashes a c (.inr ⟨name', by simp [hls, hm]⟩) hoccurs hhash
    exact hnot name' hm

theorem scans_scannedCells_iff {pre post : List (Bytes × SqObject)}
    (hls : frames.flatten = pre ++ post) :
    (∃ names, ScansTables api h slots [] (scannedCells api h pre) (fun _ => none) names) ↔
      StringKeyed api h slots (scannedCells api h pre) := by
  rw [← smooth_iff hc.acyclic]
  refine scans_links_iff hc.graph.finite hc.graph.cells (fun x hx => ?_) [] _
  rcases List.mem_cons.mp hx with rfl | hx
  · exact .inr ⟨[], _, hc.root, rfl⟩
  · obtain ⟨⟨name, o⟩, hl, rfl⟩ := List.mem_map.mp hx
    cases o with
    | table a => exact .inr ⟨[], _, hc.locals name a (by simp [hls, hl]), rfl⟩
    | _ => exact .inl rfl

omit hc in
/-- The root table is scanned first, then the locals. -/
theorem scans_scannedCells {pre : List (Bytes × SqObject)} :
    (∃ names, ScansTables api h slots [] (scannedCells api h pre) (fun _ => none) names) ↔
      ∃ names, ScansTables api h slots [] (tableCells api h slots (.table (api.roottable h)))
          (fun _ => none) names ∧
        ∃ names', ScansTables api h slots [] (pre.map localCell) names names' := by
  constructor
  · intro hscan
    obtain ⟨names', hscan⟩ := hscan
    cases hscan with
    | into hroot hscan => exact ⟨_, hroot, names', hscan⟩
  · intro hscan
    obtain ⟨names, hroot, names', hscan⟩ := hscan
    exact ⟨names', .into hroot hscan⟩

theorem foundByName_iff (hoccurs : Occurs slots frames c) :
    FoundByName api h slots frames c ↔
      FoundInRoot api h slots frames c ∨ FoundAsLocal api h slots frames c := by
  have hroot : (∃ names, ScansTables api h slots []
      (tableCells api h slots (.table (api.roottable h))) (fun _ => none) names) ↔
      StringKeyed api h slots (tableCells api h slots (.table (api.roottable h))) :=
    (scans_iff hc.graph.finite hc.graph.cells hc.root [] _).trans (smooth_iff hc.acyclic)
  constructor
  · intro hfound
    obtain ⟨found, hnamed, hname⟩ := hfound
    obtain ⟨names, hscan, hlookup⟩ := (toClassFullName_iff hc.view hc.frameView c found).mp hnamed
    rcases hlookup with hrecorded | ⟨hnone, hfind⟩
    · have hcomes := (recorded_iff hscan rfl found).mp hrecorded
      exact .inl ⟨hroot.mp ⟨names, hscan⟩, found, hcomes, hname⟩
    · obtain ⟨pre, name, post, hls, rfl, hnot, hscans⟩ := (findsLocal_iff hc hoccurs).mp hfind
      refine .inr ⟨fun found hcomes => ?_, pre, name, post, hls, hnot, ?_⟩
      · have hsome := (recorded_iff hscan rfl found).mpr hcomes
        rw [hnone] at hsome
        cases hsome
      · exact (scans_scannedCells_iff hc hls).mp
          (scans_scannedCells.mpr ⟨names, hscan, hscans⟩)
  · intro hcond
    rcases hcond with ⟨hkeys, found, hcomes, hname⟩ | ⟨hnot, pre, name, post, hls, hfirst, hkeys⟩
    · obtain ⟨names, hscan⟩ := hroot.mpr hkeys
      have hrecorded := (recorded_iff hscan rfl found).mpr hcomes
      exact ⟨found, (toClassFullName_iff hc.view hc.frameView c found).mpr
        ⟨names, hscan, .inl hrecorded⟩, hname⟩
    · obtain ⟨names, hscan, hscans⟩ := scans_scannedCells.mp
        ((scans_scannedCells_iff hc hls).mpr hkeys)
      have hnone : names (api.gethash h (.class_ c)) = none := by
        cases hsome : names (api.gethash h (.class_ c)) with
        | none => rfl
        | some found => exact absurd ((recorded_iff hscan rfl found).mp hsome) (hnot found)
      have hfind := (findsLocal_iff hc hoccurs).mpr ⟨pre, name, post, hls, rfl, hfirst, hscans⟩
      exact ⟨cstr name, (toClassFullName_iff hc.view hc.frameView c _).mpr
        ⟨names, hscan, .inr ⟨hnone, hfind⟩⟩, .isLocal (by simp [hls])⟩

/-! ### The name of a class in the root table -/

omit hc in
theorem classAt_of_holds {o : SqObject} {cs : List ClassCell} {keys : List Bytes} {hash : UInt64}
    (hcs : cs = tableCells api h slots o) (hh : Holds (tableCells api h slots) cs keys hash) :
    ∃ c, ClassAt slots o keys c ∧ api.gethash h (.class_ c) = hash := by
  induction hh generalizing o with
  | here hmem =>
    subst hcs
    obtain ⟨slot, hslot, hcell⟩ := mem_tableCells.mp hmem
    obtain ⟨a, rfl, rfl⟩ := slotCell_eq_mark hcell
    exact ⟨a, .here hslot, rfl⟩
  | inside hmem _ ih =>
    subst hcs
    obtain ⟨slot, hslot, hcell⟩ := mem_tableCells.mp hmem
    obtain ⟨a, rfl, rfl⟩ := slotCell_eq_link hcell
    obtain ⟨c, hat, hhash⟩ := ih rfl
    exact ⟨c, .inside hslot hat, hhash⟩

omit hc in
theorem ClassAt.occurs {o : SqObject} {keys : List Bytes} (hat : ClassAt slots o keys c) :
    Occurs slots frames c := by
  induction hat with
  | @here o key c hslot => exact .inl ⟨o, .string key, hslot⟩
  | inside _ _ ih => exact ih

omit hc in
theorem ClassAt.keys {P : Bytes → Prop} (hP : ∀ o key v, some (.string key, v) ∈ slots o → P key)
    {o : SqObject} {keys : List Bytes} (hat : ClassAt slots o keys c) : ∀ key ∈ keys, P key := by
  induction hat with
  | here hslot => simpa using hP _ _ _ hslot
  | inside hslot _ ih => exact List.forall_mem_cons.mpr ⟨hP _ _ _ hslot, ih⟩

omit hc in
theorem foldl_fullName {ns : Bytes} (hns : ns ≠ []) {keys : List Bytes}
    (hkeys : ∀ key ∈ keys, key ≠ [] ∧ 0 ∉ key) :
    keys.foldl fullName ns = ns ++ keys.flatMap (ascii "." ++ ·) := by
  induction keys generalizing ns with
  | nil => simp
  | cons key keys ih =>
    obtain ⟨⟨-, hkey⟩, hrest⟩ := List.forall_mem_cons.mp hkeys
    have hname : fullName ns key = ns ++ (ascii "." ++ key) := by
      rw [fullName, if_neg hns, cstr_eq_iff.mpr hkey, List.append_assoc]
    rw [List.foldl_cons, ih (by simp [hname, hns]) hrest, hname, List.flatMap_cons,
      List.append_assoc]

omit hc in
theorem dotted_cons (key : Bytes) (keys : List Bytes) :
    dotted (key :: keys) = key ++ keys.flatMap (ascii "." ++ ·) := by
  induction keys generalizing key with
  | nil => simp [dotted]
  | cons key' keys ih =>
    have hcons : dotted (key :: key' :: keys) = key ++ (ascii "." ++ dotted (key' :: keys)) := by
      simp [dotted]
    rw [hcons, ih, List.flatMap_cons, List.append_assoc]

/-- Where no key is empty or has a NUL, the name that is recorded is a name. -/
theorem ComesTo.nameOf (hkeys : PlainKeys slots)
    (hoccurs : Occurs slots frames c) (hcomes : ComesTo api h slots c found) :
    NameOf api h slots frames c found := by
  obtain ⟨n, key, cs, names, hcomes, -, rfl⟩ := hcomes
  obtain ⟨keys, hholds, hname⟩ := hcomes.holds
  obtain ⟨c', hat, hhash⟩ := classAt_of_holds rfl hholds
  obtain rfl := hc.hashes c' c hat.occurs hoccurs hhash
  have hplain := hat.keys hkeys
  have hdotted : keys.foldl fullName [] = dotted keys := by
    cases keys with
    | nil => rfl
    | cons key keys =>
      obtain ⟨⟨hne, hkey⟩, hrest⟩ := List.forall_mem_cons.mp hplain
      have hfirst : fullName [] key = key := by simp [fullName, cstr_eq_iff.mpr hkey]
      rw [List.foldl_cons, hfirst, foldl_fullName hne hrest, dotted_cons]
  rw [hname, hdotted]
  exact .root hat

/-- **When a class is found.** In a heap whose tables form no cycle `ToClassFullName`
returns a name of a class that occurs exactly if the scan of the root table comes to
it, under a name of it, and not to a class or a table under a key that is no string;
or the scan does not come to it, but it is a local, and the scans up to there come to
no such key. Where the keys are plain every name the scan records is a name of its
class. -/
theorem class_found_iff (hoccurs : Occurs slots frames c) :
    (FoundByName api h slots frames c ↔
      FoundInRoot api h slots frames c ∨ FoundAsLocal api h slots frames c) ∧
    (PlainKeys slots → ∀ found, ComesTo api h slots c found → NameOf api h slots frames c found) :=
  ⟨foundByName_iff hc hoccurs, fun hkeys _ hcomes => hcomes.nameOf hc hkeys hoccurs⟩

end

end

/-! ## Two heaps -/

/-- A root table whose last slot has a second table. -/
def twoTables (outer inner : Slots) : Heap where
  objects := [.table (outer ++ [some (.string (ascii "t"), .table 1)]), .table inner, .class_,
    .class_]

theorem mem_twoTables {outer inner : Slots} {o : SqObject} {slot : SqObject × SqObject}
    (hm : some slot ∈ (twoTables outer inner).slots o) :
    (o = .table 0 ∧ (some slot ∈ outer ∨ slot = (.string (ascii "t"), .table 1))) ∨
      (o = .table 1 ∧ some slot ∈ inner) := by
  unfold Heap.slots twoTables at hm
  cases o with
  | table a => rcases a with _ | _ | _ | _ | a <;> simp at hm <;> simp [hm]
  | array a => rcases a with _ | _ | _ | _ | a <;> simp at hm
  | instance_ a => rcases a with _ | _ | _ | _ | a <;> simp at hm
  | _ => simp at hm

/-- Slots with the classes 2 and 3 under string keys. -/
def ClassSlots (slots : Slots) : Prop :=
  ∀ key v, some (key, v) ∈ slots → ∃ c, v = .class_ c ∧ (c = 2 ∨ c = 3)

theorem classHeap_twoTables {outer inner : Slots} (houter : ClassSlots outer)
    (hinner : ClassSlots inner) :
    ClassHeap heapApi (twoTables outer inner) (twoTables outer inner).slots []
      {.table 0, .table 1} where
  view := tableView_heapApi _
  frameView := ⟨fun level => rfl, fun level nSeq => rfl⟩
  graph := by
    refine ⟨by simp, fun o _ key a hm => ?_⟩
    rcases mem_twoTables hm with ⟨-, hm | heq⟩ | ⟨-, hm⟩
    · obtain ⟨c, hv, -⟩ := houter _ _ hm
      cases hv
    · cases heq
      simp
    · obtain ⟨c, hv, -⟩ := hinner _ _ hm
      cases hv
  root := by simp [heapApi, twoTables]
  locals := by simp
  acyclic := by
    have hstep : ∀ o u, TableSlot (twoTables outer inner).slots o u →
        o = .table 0 ∧ u = .table 1 := by
      intro o u hslot
      obtain ⟨key, a, hm, rfl⟩ := hslot
      rcases mem_twoTables hm with ⟨rfl, hm | heq⟩ | ⟨-, hm⟩
      · obtain ⟨c, hv, -⟩ := houter _ _ hm
        cases hv
      · cases heq
        exact ⟨rfl, rfl⟩
      · obtain ⟨c, hv, -⟩ := hinner _ _ hm
        cases hv
    intro o hcycle
    obtain ⟨x, hx, -⟩ := TransGen.head'_iff.mp hcycle
    obtain ⟨y, -, hy⟩ := TransGen.tail'_iff.mp hcycle
    have heq := (hstep o x hx).1.symm.trans (hstep y o hy).2
    cases heq
  hashes := by
    have htwo : ∀ c, Occurs (twoTables outer inner).slots [] c → c = 2 ∨ c = 3 := by
      intro c hoccurs
      rcases hoccurs with ⟨o, key, hm⟩ | ⟨name, hm⟩
      · rcases mem_twoTables hm with ⟨-, hm | heq⟩ | ⟨-, hm⟩
        · obtain ⟨c', hv, hc'⟩ := houter _ _ hm
          obtain rfl := SqObject.class_.inj hv
          exact hc'
        · cases heq
        · obtain ⟨c', hv, hc'⟩ := hinner _ _ hm
          obtain rfl := SqObject.class_.inj hv
          exact hc'
      · simp at hm
    have hne : heapRaw (.class_ 2) ≠ heapRaw (.class_ 3) := by decide
    intro c c' hc hc' heq
    rcases htwo c hc with rfl | rfl <;> rcases htwo c' hc' with rfl | rfl
    · rfl
    · exact absurd heq hne
    · exact absurd heq.symm hne
    · rfl

/-- A class in a table of the root table. -/
def nestedHeap : Heap := twoTables [] [some (.string (ascii "C"), .class_ 3)]

/-- `t.C` -/
theorem class_found_nested : FoundByName heapApi nestedHeap nestedHeap.slots [] 3 := by
  have hinner : ClassSlots [some (.string (ascii "C"), .class_ 3)] := by
    intro key v hm
    simp at hm
    exact ⟨3, hm.2, .inr rfl⟩
  have hc : ClassHeap heapApi nestedHeap nestedHeap.slots [] {.table 0, .table 1} :=
    classHeap_twoTables (by simp [ClassSlots]) hinner
  have hC : some (SqObject.string (ascii "C"), SqObject.class_ 3) ∈ nestedHeap.slots (.table 1) :=
    List.mem_cons_self
  have hscan : ∃ names, ScansTables heapApi nestedHeap nestedHeap.slots []
      (tableCells heapApi nestedHeap nestedHeap.slots (.table 0)) (fun _ => none) names :=
    ⟨_, .into (.record rfl .done) .done⟩
  obtain ⟨names, hscan⟩ := hscan
  have hcomes : ComesTo heapApi nestedHeap nestedHeap.slots 3 (ascii "t.C") :=
    ⟨ascii "t", ascii "C", [], _, .into .here, rfl, rfl⟩
  have hplain : PlainKeys nestedHeap.slots := by
    intro o key v hm
    rcases mem_twoTables hm with ⟨-, hm | heq⟩ | ⟨-, hm⟩
    · simp at hm
    · cases heq
      exact ⟨by decide, by decide⟩
    · obtain ⟨rfl, -⟩ : key = ascii "C" ∧ v = .class_ 3 := by simpa using hm
      exact ⟨by decide, by decide⟩
  have hiff := class_found_iff hc (.inl ⟨_, _, hC⟩)
  exact hiff.1.mpr (.inl ⟨hscan.smooth.notStuck, _, hcomes, hiff.2 hplain _ hcomes⟩)

/-- The class 2 is in the root table as `A` and in the table `t` as `B`, before the
class 3. -/
def aliasHeap : Heap :=
  twoTables [some (.string (ascii "A"), .class_ 2)]
    [some (.string (ascii "B"), .class_ 2), some (.string (ascii "C"), .class_ 3)]

/-- `t.C` is a name of the class 3, but the scan leaves `t` at the class it has seen
before. -/
theorem alias_notFound :
    ClassHeap heapApi aliasHeap aliasHeap.slots [] {.table 0, .table 1} ∧
      NameOf heapApi aliasHeap aliasHeap.slots [] 3 (ascii "t.C") ∧
      ¬ FoundByName heapApi aliasHeap aliasHeap.slots [] 3 := by
  have houter : ClassSlots [some (.string (ascii "A"), .class_ 2)] := by
    intro key v hm
    simp at hm
    exact ⟨2, hm.2, .inl rfl⟩
  have hinner : ClassSlots
      [some (.string (ascii "B"), .class_ 2), some (.string (ascii "C"), .class_ 3)] := by
    intro key v hm
    simp at hm
    rcases hm with hm | hm
    · exact ⟨2, hm.2, .inl rfl⟩
    · exact ⟨3, hm.2, .inr rfl⟩
  have hc : ClassHeap heapApi aliasHeap aliasHeap.slots [] {.table 0, .table 1} :=
    classHeap_twoTables houter hinner
  have ht : some (SqObject.string (ascii "t"), SqObject.table 1) ∈ aliasHeap.slots (.table 0) :=
    List.mem_cons_of_mem _ List.mem_cons_self
  have hC : some (SqObject.string (ascii "C"), SqObject.class_ 3) ∈ aliasHeap.slots (.table 1) :=
    List.mem_cons_of_mem _ List.mem_cons_self
  have hat : ClassAt aliasHeap.slots (.table 0) [ascii "t", ascii "C"] 3 := .inside ht (.here hC)
  have hname : NameOf heapApi aliasHeap aliasHeap.slots [] 3 (dotted [ascii "t", ascii "C"]) :=
    .root hat
  refine ⟨hc, hname, ?_⟩
  intro hfound
  obtain ⟨found, hnamed, -⟩ := hfound
  obtain ⟨names, hscan, hlookup⟩ := (toClassFullName_iff hc.view hc.frameView 3 found).mp hnamed
  -- the scan records `A` and nothing else
  have honly : ScansTables heapApi aliasHeap aliasHeap.slots []
      (tableCells heapApi aliasHeap aliasHeap.slots (.table 0)) (fun _ => none)
      (Function.update (fun _ => none) (heapRaw (.class_ 2)) (some (ascii "A"))) :=
    .record rfl (.into (.leave rfl) .done)
  obtain rfl := hscan.unique honly
  rcases hlookup with hrecorded | ⟨-, hfind⟩
  · cases hrecorded
  · obtain ⟨pre, name, a, post, names', hls, -⟩ := hfind
    simp at hls

end Sdb.L4
