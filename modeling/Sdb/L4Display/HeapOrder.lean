import Sdb.Core.Exec
import Sdb.L3Vm.Commands

/-!
# What the data commands do to the heap

They change it only through the metamethods that `sq_next` and `sq_get` call, which may
do anything, and through `sq_set`, `sq_rawset` and `sq_newtable`. So a relation that each
of these takes from the heap before to the heap after holds of every command, however it
ends (`HeapOrder.dataCall`). What only lists needs it of `sq_next` alone (`ReadOrder`).
-/
namespace Sdb.L4

open Sdb.L1 Sdb.L3 Sdb.Exec

section
variable {H : Type} {α β : Type}

/-- A relation between the heaps before and after, kept by what only reads and by a
`_nexti` metamethod. -/
structure ReadOrder (api : SqApi H) (Q : H → H → Prop) : Prop where
  refl : ∀ h, Q h h
  trans : ∀ h₁ h₂ h₃, Q h₁ h₂ → Q h₂ h₃ → Q h₁ h₃
  advance : ∀ h o iter, Q h (api.advance h o iter).1

/-- A relation between the heaps before and after that every VM operation keeps. -/
structure HeapOrder (api : SqApi H) (Q : H → H → Prop) : Prop extends ReadOrder api Q where
  get : ∀ h o key, Q h (api.get h o key).1
  set : ∀ h o key val, Q h (api.set h o key val).1
  rawset : ∀ h t key val, Q h (api.rawset h t key val)
  newtable : ∀ h, Q h (api.newtable h).1

/-- Only the `_nexti` of an instance, a userdata or a generator can change the heap. -/
theorem advance_heap {api : SqApi H} {Q : H → H → Prop} (hrefl : ∀ h, Q h h)
    (hnexti : ∀ h o iter, Q h (api.nexti h o iter).1) (h : H) (o iter : SqObject) :
    Q h (api.advance h o iter).1 := by
  cases o with
  | instance_ a => exact hnexti h _ iter
  | userData a => exact hnexti h _ iter
  | generator a => exact hnexti h _ iter
  | _ => exact hrefl h

/-- However `m` ends, its heaps are related. -/
def Turns (Q : H → H → Prop) (m : VmM H α) : Prop := Carries (fun s t => Q s.heap t.heap) m

namespace ReadOrder

variable {api : SqApi H} {Q : H → H → Prop} (hq : ReadOrder api Q)

include hq

/-! ## The VM operations -/

theorem done (a : α) : Turns Q (pure a : VmM H α) := carries_pure (fun s => hq.refl s.heap) a

theorem fail (e : Exn) : Turns Q (throw e : VmM H α) :=
  carries_throw (fun s => hq.refl s.heap) e

theorem seq {m : VmM H α} {f : α → VmM H β} (hm : Turns Q m) (hf : ∀ a, Turns Q (f a)) :
    Turns Q (m >>= f) :=
  Carries.bind (fun s t u h₁ h₂ => hq.trans s.heap t.heap u.heap h₁ h₂) hm hf

theorem recordFault (f : Fault) : Turns Q (L3.recordFault (H := H) f) := fun s => hq.refl s.heap

theorem sqGetstackobj (k : Nat) : Turns Q (L3.sqGetstackobj (H := H) k) := by
  intro s
  unfold L3.sqGetstackobj Ends EStateM.run
  dsimp only
  cases s.stack[k - 1]? with
  | none => exact hq.refl s.heap
  | some o => exact hq.refl s.heap

theorem sqPop (k : Nat) : Turns Q (L3.sqPop (H := H) k) := by
  intro s
  unfold L3.sqPop Ends EStateM.run
  dsimp only
  by_cases hk : k ≤ s.stack.length
  · rw [if_pos hk]
    exact hq.refl s.heap
  · rw [if_neg hk]
    exact hq.refl s.heap

theorem sqPoptop : Turns Q (L3.sqPoptop (H := H)) := hq.sqPop 1

theorem sqPushobject (o : SqObject) : Turns Q (L3.sqPushobject (H := H) o) :=
  fun s => hq.refl s.heap

theorem read : Turns Q (MonadState.get : VmM H (SqVm H)) := fun s => hq.refl s.heap

theorem sqGettype (k : Nat) : Turns Q (L3.sqGettype (H := H) k) :=
  hq.seq (hq.sqGetstackobj k) fun _ => hq.done _

theorem sqPush (k : Nat) : Turns Q (L3.sqPush (H := H) k) :=
  hq.seq (hq.sqGetstackobj k) fun _ => hq.sqPushobject _

theorem sqGetinteger (k : Nat) : Turns Q (L3.sqGetinteger api k) := by
  refine hq.seq (hq.sqGetstackobj k) fun o => ?_
  cases o <;> exact hq.done _

theorem sqGetstring (k : Nat) : Turns Q (L3.sqGetstring (H := H) k) := by
  refine hq.seq (hq.sqGetstackobj k) fun o => ?_
  cases o <;> exact hq.done _

theorem sqGetsize (k : Nat) : Turns Q (L3.sqGetsize api k) :=
  hq.seq (hq.sqGetstackobj k) fun _ => hq.seq hq.read fun _ => hq.done _

theorem sqGethash (k : Nat) : Turns Q (L3.sqGethash api k) :=
  hq.seq (hq.sqGetstackobj k) fun _ => hq.seq hq.read fun _ => hq.done _

theorem sqGetclosureinfo (k : Nat) : Turns Q (L3.sqGetclosureinfo api k) :=
  hq.seq (hq.sqGetstackobj k) fun _ => hq.seq hq.read fun _ => hq.done _

theorem sqPushAnswer (query : H → SqObject → Option SqObject) (k : Nat) :
    Turns Q (L3.sqPushAnswer query k) := by
  refine hq.seq (hq.sqGetstackobj k) fun o => hq.seq hq.read fun s => ?_
  cases query s.heap o with
  | none => exact hq.done _
  | some answer => exact hq.seq (hq.sqPushobject answer) fun _ => hq.done _

theorem sqPushroottable : Turns Q (L3.sqPushroottable api) :=
  hq.seq hq.read fun _ => hq.sqPushobject _

theorem sqGetlocal (level nSeq : Nat) : Turns Q (L3.sqGetlocal api level nSeq) := by
  refine hq.seq hq.read fun s => ?_
  cases api.getlocal s.heap level nSeq with
  | none => exact hq.done _
  | some p => exact hq.seq (hq.sqPushobject p.2) fun _ => hq.done _

theorem sqStackinfos (level : Nat) : Turns Q (L3.sqStackinfos api level) :=
  hq.seq hq.read fun _ => hq.done _

theorem sqNext (k : Nat) : Turns Q (L3.sqNext api k) := by
  intro s
  obtain ⟨stack, heap, faults⟩ := s
  unfold L3.sqNext Ends EStateM.run
  dsimp only
  cases stack with
  | nil => exact hq.refl heap
  | cons iter rest =>
    cases (iter :: rest)[k - 1]? with
    | none => exact hq.refl heap
    | some o =>
      dsimp only
      have hkept := hq.advance heap o iter
      cases hn : api.advance heap o iter with
      | mk h' answer =>
        rw [hn] at hkept
        cases answer with
        | none => exact hkept
        | some slot => exact hkept

/-! ## Rendering -/

theorem unnamed (what : String) :
    Turns Q (do L3.recordFault .unnamedClass; throw (.runtimeError what) : VmM H α) :=
  hq.seq (hq.recordFault _) fun _ => hq.fail _

theorem classNamesLoop {rec : Bytes → ClassNames → VmM H ClassNames}
    (hrec : ∀ ns names, Turns Q (rec ns names)) (ns : Bytes) (n : Nat) (names : ClassNames) :
    Turns Q (L3.classNamesLoop api rec ns n names) := by
  induction n generalizing names with
  | zero => exact hq.fail _
  | succ n ih =>
    unfold L3.classNamesLoop
    refine hq.seq (hq.sqNext 2) fun next => ?_
    split
    · refine hq.seq (hq.sqGettype 1) fun type => ?_
      split
      · refine hq.seq (hq.sqGetstring 2) fun key => ?_
        split
        · exact hq.fail _
        · dsimp only
          split
          · refine hq.seq (hq.sqGethash 1) fun hash => ?_
            split
            · exact hq.seq (hq.sqPop 2) fun _ => hq.done _
            · exact hq.seq (hq.sqPop 2) fun _ => ih _
          · exact hq.seq (hrec _ _) fun _ => hq.seq (hq.sqPop 2) fun _ => ih _
      · exact hq.seq (hq.sqPop 2) fun _ => ih _
    · exact hq.done _

theorem getClassesFullNameHelper (n : Nat) (ns : Bytes) (names : ClassNames) :
    Turns Q (L3.getClassesFullNameHelper api n ns names) := by
  induction n generalizing ns names with
  | zero => exact hq.fail _
  | succ n ih =>
    unfold L3.getClassesFullNameHelper
    refine hq.seq (hq.sqGettype 1) fun type => ?_
    split
    · exact hq.unnamed _
    · refine hq.seq (hq.sqPushobject _) fun _ => ?_
      refine hq.seq (hq.classNamesLoop ih ns n names) fun _ => ?_
      exact hq.seq (hq.sqPop 1) fun _ => hq.done _

theorem localsLoop (stackIdx : Nat) (hash : UInt64) (n nSeq : Nat) (names : ClassNames) :
    Turns Q (L3.localsLoop api stackIdx hash n nSeq names) := by
  induction n generalizing nSeq names with
  | zero => exact hq.fail _
  | succ n ih =>
    unfold L3.localsLoop
    refine hq.seq (hq.sqGetlocal stackIdx nSeq) fun name => ?_
    split
    · exact hq.done _
    · refine hq.seq (hq.sqGettype 1) fun type => ?_
      split
      · refine hq.seq (hq.getClassesFullNameHelper n [] names) fun _ => ?_
        exact hq.seq hq.sqPoptop fun _ => ih _ _
      · split
        · refine hq.seq (hq.sqGethash 1) fun classHash => ?_
          split
          · exact hq.seq hq.sqPoptop fun _ => hq.done _
          · exact hq.seq hq.sqPoptop fun _ => ih _ _
        · exact hq.seq hq.sqPoptop fun _ => ih _ _

theorem framesLoop (hash : UInt64) (n stackIdx : Nat) (names : ClassNames) :
    Turns Q (L3.framesLoop api hash n stackIdx names) := by
  induction n generalizing stackIdx names with
  | zero => exact hq.fail _
  | succ n ih =>
    unfold L3.framesLoop
    refine hq.seq (hq.sqStackinfos stackIdx) fun found => ?_
    split
    · refine hq.seq (hq.localsLoop stackIdx hash n 0 names) fun result => ?_
      split
      · exact hq.done _
      · exact ih _ _
    · exact hq.unnamed _

theorem toClassFullName (fuel : Nat) : Turns Q (L3.toClassFullName api fuel) := by
  unfold L3.toClassFullName
  refine hq.seq (hq.sqGettype 1) fun type => ?_
  split
  · exact hq.unnamed _
  · refine hq.seq (hq.sqGethash 1) fun hash => hq.seq hq.sqPushroottable fun _ => ?_
    refine hq.seq (hq.getClassesFullNameHelper fuel [] _) fun names => ?_
    refine hq.seq hq.sqPoptop fun _ => ?_
    split
    · exact hq.done _
    · exact hq.framesLoop _ fuel 0 names

section
variable {toString : VmM H Bytes} (ht : Turns Q toString) (lib : CppLib)

include ht

theorem collectKeys (n : Nat) : Turns Q (L3.collectKeys api toString n) := by
  induction n with
  | zero => exact hq.fail _
  | succ n ih =>
    unfold L3.collectKeys
    refine hq.seq (hq.sqGetinteger 1) fun iter => ?_
    split
    · exact hq.done _
    · refine hq.seq (hq.sqNext 2) fun next => ?_
      split
      · refine hq.seq hq.sqPoptop fun _ => hq.seq ht fun key => hq.seq hq.sqPoptop fun _ => ?_
        exact hq.seq ih fun _ => hq.done _
      · exact hq.done _

theorem sortedKeys (fuel : Nat) : Turns Q (L3.sortedKeys api lib toString fuel) :=
  hq.seq (hq.sqPushobject _) fun _ => hq.seq (hq.collectKeys ht fuel) fun _ =>
    hq.seq hq.sqPoptop fun _ => hq.done _

theorem writeTableSummaryField (isFirst : Bool) (ss : Bytes) :
    Turns Q (L3.writeTableSummaryField toString isFirst ss) := by
  unfold L3.writeTableSummaryField
  refine hq.seq ht fun valueStr => ?_
  split
  · exact hq.seq hq.sqPoptop fun _ => hq.seq ht fun _ => hq.seq hq.sqPoptop fun _ => hq.done _
  · exact hq.seq (hq.sqPop 2) fun _ => hq.done _

theorem sortedFields (initial : Nat) (keys : List (Bytes × Int)) (ss : Bytes) :
    Turns Q (L3.sortedFields api toString initial keys ss) := by
  induction keys generalizing ss with
  | nil => exact hq.done _
  | cons key keys ih =>
    unfold L3.sortedFields
    split
    · refine hq.seq (hq.sqPushobject _) fun _ => hq.seq (hq.sqNext 2) fun next => ?_
      split
      · refine hq.seq (hq.writeTableSummaryField ht _ ss) fun _ => ?_
        exact hq.seq hq.sqPoptop fun _ => ih _
      · exact hq.seq hq.sqPoptop fun _ => hq.done _
    · exact hq.done _

theorem streamedFields (n : Nat) (isFirst : Bool) (ss : Bytes) :
    Turns Q (L3.streamedFields api toString n isFirst ss) := by
  induction n generalizing isFirst ss with
  | zero => exact hq.fail _
  | succ n ih =>
    unfold L3.streamedFields
    split
    · refine hq.seq (hq.sqNext 2) fun next => ?_
      split
      · exact hq.seq (hq.writeTableSummaryField ht isFirst ss) fun _ => ih _ _
      · exact hq.done _
    · exact hq.done _

theorem createTableSummary (fuel : Nat) :
    Turns Q (L3.createTableSummary api lib toString fuel) := by
  unfold L3.createTableSummary
  refine hq.seq (hq.sqGetsize 1) fun size => ?_
  split
  · exact hq.seq (hq.sortedKeys ht lib fuel) fun keys =>
      hq.seq (hq.sortedFields ht _ keys _) fun _ => hq.done _
  · exact hq.seq (hq.sqPushobject _) fun _ => hq.seq (hq.streamedFields ht fuel true _) fun _ =>
      hq.seq hq.sqPoptop fun _ => hq.done _

end

theorem closureName : Turns Q (L3.closureName api) := by
  unfold L3.closureName
  refine hq.seq (hq.sqPushAnswer _ 1) fun found => ?_
  split
  · refine hq.seq (hq.sqGetstring 1) fun name => ?_
    split
    · exact hq.seq hq.sqPoptop fun _ => hq.done _
    · exact hq.seq (hq.recordFault _) fun _ => hq.done _
  · exact hq.done _

theorem closureText : Turns Q (L3.closureText api) := by
  refine hq.seq hq.closureName fun name => hq.seq (hq.sqGetclosureinfo 1) fun info => ?_
  cases info <;> exact hq.done _

theorem toString (lib : CppLib) (fuel : Nat) : Turns Q (L3.toString api lib fuel) := by
  induction fuel with
  | zero => exact hq.fail _
  | succ n ih =>
    unfold L3.toString
    refine hq.seq (hq.sqGetstackobj 1) fun o => ?_
    cases o with
    | closure a => exact hq.closureText
    | class_ a => exact hq.toClassFullName n
    | array a => exact hq.seq (hq.sqGetsize 1) fun _ => hq.done _
    | instance_ a => exact hq.createTableSummary ih lib n
    | table a => exact hq.createTableSummary ih lib n
    | _ => exact hq.done _

/-! ## Children -/

omit hq in
/-- A rendering that keeps the relation. -/
structure Renders (Q : H → H → Prop) (r : Renderer H) : Prop where
  toString : Turns Q r.toString
  toClassFullName : Turns Q r.toClassFullName

theorem renderer (lib : CppLib) (fuel : Nat) : Renders Q (L3.renderer api lib fuel) :=
  ⟨hq.toString lib fuel, hq.toClassFullName fuel⟩

theorem delegateSize : Turns Q (L3.delegateSize api) := by
  refine hq.seq (hq.sqGetstackobj 1) fun o => ?_
  split
  · exact hq.fail _
  · refine hq.seq (hq.sqPushobject _) fun _ => hq.seq (hq.sqPushAnswer _ 1) fun found => ?_
    split
    · exact hq.seq (hq.sqGetsize 1) fun _ => hq.seq hq.sqPoptop fun _ =>
        hq.seq hq.sqPoptop fun _ => hq.done _
    · exact hq.seq hq.sqPoptop fun _ => hq.done _

theorem childCount (type : SqObjectType) : Turns Q (L3.childCount api type) := by
  cases type with
  | instance_ | userData => exact hq.delegateSize
  | array | table => exact hq.seq (hq.sqGetsize 1) fun _ => hq.done _
  | _ => exact hq.done _

section
variable {r : Renderer H} (hr : Renders Q r)

include hr

theorem instanceClassName (type : SqObjectType) : Turns Q (L3.instanceClassName api r type) := by
  unfold L3.instanceClassName
  split
  · refine hq.seq (hq.sqPushAnswer _ 1) fun found => ?_
    split
    · exact hq.seq hr.toClassFullName fun _ => hq.seq hq.sqPoptop fun _ => hq.done _
    · exact hq.done _
  · exact hq.done _

theorem createChildVariable : Turns Q (L3.createChildVariable api r) :=
  hq.seq (hq.sqGetstackobj 1) fun _ => hq.seq hr.toString fun _ =>
    hq.seq (hq.instanceClassName hr _) fun _ => hq.seq (hq.childCount _) fun _ => hq.done _

theorem createTableChildVariable (iter : Int) :
    Turns Q (L3.createTableChildVariable api r iter) :=
  hq.seq (hq.createChildVariable hr) fun _ => hq.seq hq.sqPoptop fun _ =>
    hq.seq hr.toString fun _ => hq.seq (hq.sqGettype 1) fun _ => hq.seq hq.sqPoptop fun _ =>
      hq.done _

theorem arrayChildren (n : Nat) : Turns Q (L3.arrayChildren api r n) := by
  induction n with
  | zero => exact hq.done _
  | succ n ih =>
    unfold L3.arrayChildren
    refine hq.seq (hq.sqGetinteger 1) fun iter => ?_
    split
    · exact hq.done _
    · refine hq.seq (hq.sqNext 2) fun next => ?_
      split
      · exact hq.seq (hq.createChildVariable hr) fun _ => hq.seq hq.sqPoptop fun _ =>
          hq.seq hr.toString fun _ => hq.seq hq.sqPoptop fun _ => hq.seq ih fun _ => hq.done _
      · exact hq.done _

theorem sortedChildren (keys : List (Bytes × Int)) :
    Turns Q (L3.sortedChildren api r keys) := by
  induction keys with
  | nil => exact hq.done _
  | cons key keys ih =>
    unfold L3.sortedChildren
    refine hq.seq (hq.sqPushobject _) fun _ => hq.seq (hq.sqNext 2) fun next => ?_
    split
    · exact hq.seq (hq.createTableChildVariable hr _) fun _ => hq.seq hq.sqPoptop fun _ =>
        hq.seq ih fun _ => hq.done _
    · exact hq.seq hq.sqPoptop fun _ => hq.done _

theorem streamedChildren (n : Nat) : Turns Q (L3.streamedChildren api r n) := by
  induction n with
  | zero => exact hq.done _
  | succ n ih =>
    unfold L3.streamedChildren
    refine hq.seq (hq.sqGetinteger 1) fun iter => ?_
    split
    · exact hq.done _
    · refine hq.seq (hq.sqNext 2) fun next => ?_
      split
      · exact hq.seq (hq.createTableChildVariable hr _) fun _ => hq.seq ih fun _ => hq.done _
      · exact hq.done _

theorem tableChildren (lib : CppLib) (fuel : Nat) (pagination : PaginationInfo) :
    Turns Q (L3.tableChildren api lib r fuel pagination) := by
  unfold L3.tableChildren
  refine hq.seq (hq.sqGetsize 1) fun size => ?_
  split
  · refine hq.seq (hq.sortedKeys hr.toString lib fuel) fun keys => ?_
    split
    · exact hq.fail _
    · exact hq.sortedChildren hr _
  · exact hq.seq (hq.sqPushobject _) fun _ => hq.seq (hq.streamedChildren hr _) fun _ =>
      hq.seq hq.sqPoptop fun _ => hq.done _

theorem createChildVariables (lib : CppLib) (fuel : Nat) (pagination : PaginationInfo) :
    Turns Q (L3.createChildVariables api lib r fuel pagination) := by
  unfold L3.createChildVariables
  refine hq.seq (hq.sqGettype 1) fun type => ?_
  split
  · exact hq.seq (hq.sqPushobject _) fun _ => hq.seq (hq.arrayChildren hr _) fun _ =>
      hq.seq hq.sqPoptop fun _ => hq.done _
  · exact hq.tableChildren hr lib fuel pagination
  · exact hq.tableChildren hr lib fuel pagination
  · exact hq.done _

theorem rootVariablesLoop (stackFrame n nSeq : Nat) :
    Turns Q (L3.rootVariablesLoop api r stackFrame n nSeq) := by
  induction n generalizing nSeq with
  | zero => exact hq.done _
  | succ n ih =>
    unfold L3.rootVariablesLoop
    refine hq.seq (hq.sqGetlocal stackFrame nSeq) fun name => ?_
    split
    · exact hq.done _
    · exact hq.seq (hq.createChildVariable hr) fun _ => hq.seq hq.sqPoptop fun _ =>
        hq.seq (ih (nSeq + 1)) fun _ => hq.done _

end

/-! ## Locals and nodes -/

theorem withStackVariables {stackFrame : UInt32} {path : Bytes}
    {fn : List UInt64 → VmM H (Except ReturnCode α)} (hfn : ∀ parts, Turns Q (fn parts)) :
    Turns Q (L3.withStackVariables api stackFrame path fn) := by
  unfold L3.withStackVariables
  split
  · exact hq.done _
  · split
    · exact hq.fail _
    · refine hq.seq (hq.sqGetlocal _ _) fun name => ?_
      split
      · exact hq.done _
      · exact hq.seq (hfn _) fun _ => hq.seq hq.sqPoptop fun _ => hq.done _

theorem literalObject (type : ExpressionNodeType) (value : Bytes) :
    Turns Q (L3.literalObject (H := H) type value) := by
  unfold L3.literalObject
  split
  · split
    · exact hq.done _
    · exact hq.seq (hq.sqPushobject _) fun _ => hq.seq (hq.sqGetstackobj 1) fun _ =>
        hq.seq hq.sqPoptop fun _ => hq.done _
  · exact hq.seq (hq.sqPushobject _) fun _ => hq.seq (hq.sqGetstackobj 1) fun _ =>
      hq.seq hq.sqPoptop fun _ => hq.done _

theorem sqNodes (results : ExpressionResults) (type : ExpressionNodeType) (value : Bytes)
    (id : NodeId) (node : ExpressionNode) :
    Turns Q (L3.sqNodes (H := H) results type value id node) := by
  induction node generalizing id with
  | null => exact hq.done _
  | node _ _ accessor next _ ih =>
    have hobject : Turns Q (L3.sqNodeObject (H := H) results type value id accessor) := by
      unfold L3.sqNodeObject
      split
      · split <;> exact hq.done _
      · exact hq.literalObject type value
    unfold L3.sqNodes
    refine hq.seq hobject fun target => ?_
    split
    · exact hq.done _
    · refine hq.seq (ih _) fun targets => ?_
      split <;> exact hq.done _

theorem scanForKey (key : SqObject) {found : VmM H (Except ReturnCode (SqObject × List UInt32))}
    (hfound : Turns Q found) (n : Nat) : Turns Q (L3.scanForKey api key found n) := by
  induction n with
  | zero => exact hq.fail _
  | succ n ih =>
    unfold L3.scanForKey
    refine hq.seq (hq.sqGetinteger 1) fun iter => ?_
    split
    · refine hq.seq (hq.sqNext 3) fun next => ?_
      split
      · refine hq.seq (hq.sqGetstackobj 2) fun iterKey => ?_
        split
        · exact hq.seq hfound fun _ => hq.seq (hq.sqPop 4) fun _ => hq.done _
        · exact hq.seq (hq.sqPop 2) fun _ => ih
      · exact hq.seq hq.sqPoptop fun _ => hq.seq hq.sqPoptop fun _ => hq.done _
    · exact hq.seq hq.sqPoptop fun _ => hq.seq hq.sqPoptop fun _ => hq.done _

/-! ## Stack and global variables -/

section
variable {r : Renderer H} (hr : Renders Q r)
variable (hpath : ∀ {fn : VmM H (Except ReturnCode (List Variable))}, Turns Q fn →
  ∀ path, Turns Q (L3.withVariableAtPath api fn path))

include hr hpath

theorem createChildVariablesFromIterable (lib : CppLib) (fuel : Nat) (path : List UInt64)
    (pagination : PaginationInfo) :
    Turns Q (L3.createChildVariablesFromIterable api lib r fuel path pagination) :=
  hpath (hq.seq (hq.createChildVariables hr lib fuel pagination) fun _ => hq.done _) path

theorem populateStackVariables (lib : CppLib) (fuel : Nat) (stackFrame : UInt32) (path : Bytes)
    (pagination : PaginationInfo) :
    Turns Q (L3.populateStackVariables api lib r fuel stackFrame path pagination) := by
  unfold L3.populateStackVariables
  split
  · exact hq.seq (hq.rootVariablesLoop hr _ _ _) fun _ => hq.done _
  · apply hq.withStackVariables
    intro parts
    exact hq.createChildVariablesFromIterable hr hpath lib fuel parts.tail pagination

theorem populateGlobalVariables (lib : CppLib) (fuel : Nat) (path : Bytes)
    (pagination : PaginationInfo) :
    Turns Q (L3.populateGlobalVariables api lib r fuel path pagination) := by
  unfold L3.populateGlobalVariables
  split
  · exact hq.fail _
  · refine hq.seq hq.sqPushroottable fun _ => ?_
    exact hq.seq (hq.createChildVariablesFromIterable hr hpath lib fuel _ pagination) fun _ =>
      hq.seq hq.sqPoptop fun _ => hq.done _

end

end ReadOrder

namespace HeapOrder

variable {api : SqApi H} {Q : H → H → Prop} (hq : HeapOrder api Q)

include hq

/-! ## The VM operations that write -/

theorem sqGet (k : Nat) : Turns Q (L3.sqGet api k) := by
  intro s
  obtain ⟨stack, heap, faults⟩ := s
  unfold L3.sqGet Ends EStateM.run
  dsimp only
  cases stack with
  | nil => exact hq.refl heap
  | cons key rest =>
    cases (key :: rest)[k - 1]? with
    | none => exact hq.refl heap
    | some o =>
      have hget := hq.get heap o key
      dsimp only
      generalize api.get heap o key = answer at hget ⊢
      obtain ⟨h, _ | val⟩ := answer <;> exact hget

theorem sqSet (k : Nat) : Turns Q (L3.sqSet api k) := by
  intro s
  obtain ⟨stack, heap, faults⟩ := s
  unfold L3.sqSet Ends EStateM.run
  dsimp only
  rcases stack with _ | ⟨val, _ | ⟨key, rest⟩⟩
  · exact hq.refl heap
  · exact hq.refl heap
  · cases (val :: key :: rest)[k - 1]? with
    | none => exact hq.refl heap
    | some o =>
      have hset := hq.set heap o key val
      dsimp only
      generalize api.set heap o key val = answer at hset ⊢
      obtain ⟨h, _ | _⟩ := answer <;> exact hset

theorem sqRawset (k : Nat) : Turns Q (L3.sqRawset api k) := by
  intro s
  obtain ⟨stack, heap, faults⟩ := s
  unfold L3.sqRawset Ends EStateM.run
  dsimp only
  rcases stack with _ | ⟨val, _ | ⟨key, rest⟩⟩
  · exact hq.refl heap
  · exact hq.refl heap
  · cases (val :: key :: rest)[k - 1]? with
    | none => exact hq.refl heap
    | some o =>
      cases o with
      | table t =>
        dsimp only
        by_cases hk : key = .null
        · rw [if_pos hk]
          exact hq.refl heap
        · rw [if_neg hk]
          exact hq.rawset heap t key val
      | _ => exact hq.refl heap

theorem sqNewtable : Turns Q (L3.sqNewtable api) := fun s => hq.newtable s.heap

/-! ## Paths and expressions -/

theorem withVariableAtPath {fn : VmM H (Except ReturnCode α)} (hfn : Turns Q fn)
    (path : List UInt64) : Turns Q (L3.withVariableAtPath api fn path) := by
  induction path with
  | nil => exact hfn
  | cons part path ih =>
    unfold L3.withVariableAtPath
    refine hq.seq (hq.sqGettype 1) fun type => ?_
    split
    · refine hq.seq (hq.sqGetsize 1) fun size => ?_
      split
      · exact hq.done _
      · refine hq.seq (hq.sqPushobject _) fun _ => hq.seq (hq.sqGet 2) fun found => ?_
        split
        · exact hq.seq ih fun _ => hq.seq hq.sqPoptop fun _ => hq.done _
        · exact hq.done _
    · refine hq.seq (hq.sqPushobject _) fun _ => hq.seq (hq.sqNext 2) fun next => ?_
      split
      · exact hq.seq ih fun _ => hq.seq (hq.sqPop 3) fun _ => hq.done _
      · exact hq.seq hq.sqPoptop fun _ => hq.done _
    · refine hq.seq (hq.sqPushobject _) fun _ => hq.seq (hq.sqNext 2) fun next => ?_
      split
      · exact hq.seq ih fun _ => hq.seq (hq.sqPop 3) fun _ => hq.done _
      · exact hq.seq hq.sqPoptop fun _ => hq.done _
    · exact hq.done _

theorem updateFromString (lib : CppLib) (k : Nat) (value : Bytes) :
    Turns Q (L3.updateFromString api lib k value) := by
  refine hq.seq (hq.sqGetstackobj 1) fun o => ?_
  split
  · exact hq.done _
  · refine hq.seq hq.sqPoptop fun _ => hq.seq (hq.sqPushobject _) fun _ => ?_
    refine hq.seq (hq.sqSet k) fun stored => ?_
    split <;> exact hq.done _

theorem getObjectFromExpression (fuel : Nat) (sqNode : List SqObject) :
    Turns Q (L3.getObjectFromExpression api fuel sqNode) := by
  induction sqNode with
  | nil => exact hq.seq (hq.sqGetstackobj 1) fun _ => hq.done _
  | cons accessor next ih =>
    unfold L3.getObjectFromExpression
    refine hq.seq (hq.sqGettype 1) fun type => ?_
    split
    · split
      · exact hq.done _
      · refine hq.seq (hq.sqPushobject _) fun _ => hq.seq (hq.sqGetinteger 1) fun index => ?_
        refine hq.seq (hq.sqGet 2) fun found => ?_
        split
        · exact hq.seq ih fun _ => hq.seq hq.sqPoptop fun _ => hq.done _
        · exact hq.done _
    · refine hq.seq (hq.sqPushobject _) fun _ => hq.seq (hq.sqGet 2) fun found => ?_
      split
      · exact hq.seq (hq.sqPushobject _) fun _ => hq.scanForKey accessor ih fuel
      · exact hq.done _
    · refine hq.seq (hq.sqPushobject _) fun _ => hq.seq (hq.sqGet 2) fun found => ?_
      split
      · exact hq.seq (hq.sqPushobject _) fun _ => hq.scanForKey accessor ih fuel
      · exact hq.done _
    · exact hq.done _

/-! ## The commands -/

section
variable (lib : CppLib) {r : Renderer H} (hr : ReadOrder.Renders Q r)

include hr

theorem replaceValue (text : Bytes) : Turns Q (L3.replaceValue api lib r text) := by
  unfold L3.replaceValue
  refine hq.seq (hq.sqGetstackobj 2) fun key => hq.seq (hq.updateFromString lib 4 text) fun rc => ?_
  split
  · refine hq.seq (hq.sqPushobject _) fun _ => hq.seq (hq.sqPushobject _) fun _ => ?_
    refine hq.seq (hq.sqGet 4) fun found => ?_
    split
    · exact hq.seq (hq.createChildVariable hr) fun _ => hq.done _
    · exact hq.seq (hq.recordFault _) fun _ => hq.done _
  · exact hq.done _

theorem setStackVariableValue (stackFrame : UInt32) (path text : Bytes) :
    Turns Q (L3.setStackVariableValue api lib r stackFrame path text) := by
  refine hq.withStackVariables fun parts => ?_
  split
  · exact hq.done _
  · exact hq.withVariableAtPath (hq.replaceValue lib hr text) parts.tail

end

theorem findLocal (fuel stackFrame : Nat) (value : Bytes) (sqNode : List SqObject)
    (n nSeq : Nat) : Turns Q (L3.findLocal api fuel stackFrame value sqNode n nSeq) := by
  induction n generalizing nSeq with
  | zero => exact hq.fail _
  | succ n ih =>
    unfold L3.findLocal
    refine hq.seq (hq.sqGetlocal stackFrame nSeq) fun name => ?_
    split
    · exact hq.done _
    · split
      · refine hq.seq (hq.sqPushobject _) fun _ => hq.seq (hq.sqPush 2) fun _ => ?_
        refine hq.seq (hq.sqRawset 4) fun _ => hq.seq hq.sqPoptop fun _ => ?_
        exact hq.seq (hq.getObjectFromExpression fuel sqNode) fun _ => hq.done _
      · exact hq.seq hq.sqPoptop fun _ => ih _

theorem evaluateGlobal (fuel : Nat) (sqNode : List SqObject) :
    Turns Q (L3.evaluateGlobal api fuel sqNode) :=
  hq.seq hq.sqPushroottable fun _ => hq.seq (hq.getObjectFromExpression fuel sqNode) fun _ =>
    hq.seq hq.sqPoptop fun _ => hq.done _

theorem evaluateIdentifier (fuel : Nat) (stackFrame : Int32) (value : Bytes)
    (sqNode : List SqObject) :
    Turns Q (L3.evaluateIdentifier api fuel stackFrame value sqNode) := by
  unfold L3.evaluateIdentifier
  split
  · refine hq.seq hq.sqNewtable fun _ => ?_
    refine hq.seq (hq.findLocal fuel _ value sqNode fuel 0) fun found => ?_
    split
    · exact hq.seq hq.sqPoptop fun _ => hq.done _
    · exact hq.seq hq.sqPoptop fun _ => hq.evaluateGlobal fuel sqNode
  · exact hq.evaluateGlobal fuel sqNode

theorem evaluateNode (fuel : Nat) (stackFrame : Int32) (results : ExpressionResults)
    (id : NodeId) (node : ExpressionNode) :
    Turns Q (L3.evaluateNode api fuel stackFrame results id node) := by
  cases node with
  | null => exact hq.fail _
  | node type value accessor next =>
    unfold L3.evaluateNode
    refine hq.seq (hq.sqNodes results type value id _) fun sqNode => ?_
    split
    · exact hq.done _
    · split
      · exact hq.evaluateIdentifier fuel stackFrame value _
      · exact hq.done _

theorem evaluateLoop (stackFrame : Int32) (nodeFuel n : Nat)
    (stack : List (NodeId × ExpressionNode)) (results : ExpressionResults) :
    Turns Q (L3.evaluateLoop api stackFrame nodeFuel n stack results) := by
  induction n generalizing stack results with
  | zero => exact hq.fail _
  | succ n ih =>
    cases stack with
    | nil => exact hq.done _
    | cons top stack =>
      obtain ⟨id, node⟩ := top
      unfold L3.evaluateLoop
      split
      · refine hq.seq (hq.evaluateNode nodeFuel stackFrame results id node) fun state => ?_
        split
        · exact hq.done _
        · exact ih _ _
      · exact ih _ _

theorem evaluateExpression {r : Renderer H} (hr : ReadOrder.Renders Q r) (fuel : Nat)
    (stackFrame : Int32) (root : ExpressionNode) :
    Turns Q (L3.evaluateExpression api r fuel stackFrame root) := by
  have hresolve : Turns Q (L3.resolveExpression api fuel stackFrame root) := by
    unfold L3.resolveExpression
    refine hq.seq (hq.evaluateLoop stackFrame fuel fuel _ _) fun results => ?_
    split
    · exact hq.done _
    · split <;> exact hq.done _
  unfold L3.evaluateExpression
  refine hq.seq hresolve fun resolved => ?_
  split
  · exact hq.done _
  · refine hq.seq ?_ fun _ => hq.done _
    exact hq.seq (hq.sqPushobject _) fun _ => hq.seq (hq.createChildVariable hr) fun _ =>
      hq.seq hq.sqPoptop fun _ => hq.done _

theorem getImmediateValue {r : Renderer H} (hr : ReadOrder.Renders Q r) (fuel : Nat)
    (stackFrame : Int32) (watch : Bytes) :
    Turns Q (L3.getImmediateValue api r fuel stackFrame watch) := by
  unfold L3.getImmediateValue
  split
  · exact hq.done _
  · exact hq.fail _
  · exact hq.fail _
  · exact hq.evaluateExpression hr fuel stackFrame _

theorem dataCall (lib : CppLib) {r : Renderer H} (hr : ReadOrder.Renders Q r) (fuel : Nat)
    (call : L2.DataCall) : Turns Q (L3.dataCall api lib r fuel call) := by
  cases call with
  | getStackVariables stackFrame path pagination =>
    exact (hq.toReadOrder.populateStackVariables hr hq.withVariableAtPath lib fuel stackFrame path
      pagination).map _
  | getGlobalVariables path pagination =>
    exact (hq.toReadOrder.populateGlobalVariables hr hq.withVariableAtPath lib fuel path
      pagination).map _
  | setStackVariableValue stackFrame path text =>
    exact (hq.setStackVariableValue lib hr stackFrame path text).map _
  | getImmediateValue stackFrame watch pagination =>
    exact (hq.getImmediateValue hr fuel stackFrame watch).map _

end HeapOrder

end

end Sdb.L4
