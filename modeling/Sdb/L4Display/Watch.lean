import Sdb.L4Display.Listing
import Sdb.L4Display.Worklist
import Sdb.L4Display.Terms

/-!
# Watches

`GetImmediateValue` of an accepted text shows the value of the expression as it
is read (`shows_reads`). That is the value it denotes, in every state, just when
the expression reads as it is written (`ReadsAsWritten`):

* no number is above 2147483647, no suffix follows a literal and every `.name`
  repeats the name its chain starts with; or
* a number is out of range and a literal has a suffix, and there is no value
  either way.

For any other expression the heap of its terms is a state in which the two values
differ, and each can be displayed (`readsAsWritten_of_shown`).
-/
namespace Sdb.L4

open Sdb.L1 Sdb.L3 Sdb.Exec

section
variable {H : Type} (api : SqApi H) (r : Renderer H) (fuel : Nat) (stackFrame : Int32)
  (watch : Bytes) (root : ExpressionNode) (s : SqVm H)

/-- `GetImmediateValue` shows the value: it returns `Success` with what
`CreateChildVariable` makes of it; or another code, where there is no value. -/
def Shows : Option SqObject → Prop
  | some v => ∃ nodeState t shown u, nodeState.resolvedValue = v ∧ t.stack = s.stack ∧
      Returns (resolveExpression api fuel stackFrame root) s (.ok nodeState) t ∧
      Returns (showResolved api r nodeState) t shown u ∧
      Returns (getImmediateValue api r fuel stackFrame watch) s (.ok shown) u
  | none => ∃ rc t, rc ≠ .success ∧
      Returns (getImmediateValue api r fuel stackFrame watch) s (.error rc) t

/-- `CreateChildVariable` returns for the value, and leaves something to pop. -/
def Displayed (Here : H → Prop) (v : SqObject) : Prop :=
  ∀ h, Here h → ∀ rest faults, ∃ variable_ t, t.stack ≠ [] ∧
    Returns (createChildVariable api r) ⟨v :: rest, h, faults⟩ variable_ t

variable {api r fuel stackFrame watch root s}

/-- At most one value is shown. -/
theorem Shows.unique {v v' : Option SqObject} (h : Shows api r fuel stackFrame watch root s v)
    (h' : Shows api r fuel stackFrame watch root s v') : v = v' := by
  have hmixed : ∀ {v}, Shows api r fuel stackFrame watch root s (some v) →
      ¬Shows api r fuel stackFrame watch root s none := by
    intro v hsome hnone
    obtain ⟨nodeState, t, shown, u, -, -, -, -, hrun⟩ := hsome
    obtain ⟨rc, t', -, hrun'⟩ := hnone
    cases (hrun.unique hrun').1
  cases v with
  | some v =>
    cases v' with
    | some v' =>
      obtain ⟨nodeState, t, shown, u, rfl, -, hrun, -⟩ := h
      obtain ⟨nodeState', t', shown', u', rfl, -, hrun', -⟩ := h'
      cases (hrun.unique hrun').1
      rfl
    | none => exact absurd h' (hmixed h)
  | none =>
    cases v' with
    | some v' => exact absurd h (hmixed h')
    | none => rfl

theorem Displayed.showResolved {Here : H → Prop} {nodeState : ExpressionNodeState} {h : H}
    (hd : Displayed api r Here nodeState.resolvedValue) (hh : Here h) (stack : List SqObject)
    (faults : List Fault) :
    ∃ shown u, Returns (showResolved api r nodeState) ⟨stack, h, faults⟩ shown u := by
  obtain ⟨variable_, t, hne, hchild⟩ := hd h hh stack faults
  obtain ⟨⟨top, rest⟩ | ⟨top, rest⟩, h', faults'⟩ := t
  · exact absurd rfl hne
  · have hpush : Returns (sqPushobject nodeState.resolvedValue) ⟨stack, h, faults⟩ ()
      ⟨nodeState.resolvedValue :: stack, h, faults⟩ := rfl
    have hpop : Returns sqPoptop (⟨top :: rest, h', faults'⟩ : SqVm H) () ⟨rest, h', faults'⟩ := by
      simp [Returns, sqPoptop, sqPop, EStateM.run]
    exact ⟨_, _, hpush.bind (hchild.bind (hpop.bind rfl))⟩

variable (r stackFrame s) in
/-- **An accepted text shows the value of the expression as it is read**, if that can
be displayed. -/
theorem shows_reads {sc : Scene} {Here : H → Prop} (hst : Stage api sc Here) (hh : Here s.heap)
    (hparse : parseWatch watch = .ok root)
    (hd : ∀ v, reads api sc stackFrame root = some v → Displayed api r Here v) :
    ∃ N, ∀ fuel, N ≤ fuel →
      Shows api r fuel stackFrame watch root s (reads api sc stackFrame root) := by
  obtain ⟨h', hh', N, hN⟩ := answers_resolveExpression stackFrame hst hh
    (parseWatch_rooted hparse)
  refine ⟨N, fun fuel hfuel => ?_⟩
  have hanswers := hN fuel hfuel
  have hget : getImmediateValue api r fuel stackFrame watch =
      evaluateExpression api r fuel stackFrame root := by
    rw [getImmediateValue, hparse]
  cases hreads : reads api sc stackFrame root with
  | some v =>
    rw [hreads] at hanswers
    obtain ⟨nodeState, rfl, hgives⟩ := hanswers
    have hrun : Returns (resolveExpression api fuel stackFrame root) s (.ok nodeState)
      ⟨s.stack, h', s.faults⟩ := hgives s.stack s.faults
    obtain ⟨shown, u, hshown⟩ := (hd _ hreads).showResolved hh' s.stack s.faults
    refine ⟨nodeState, ⟨s.stack, h', s.faults⟩, shown, u, rfl, rfl, hrun, hshown, ?_⟩
    rw [hget]
    exact hrun.bind (hshown.bind rfl)
  | none =>
    rw [hreads] at hanswers
    obtain ⟨rc, hrc, hgives⟩ := hanswers
    refine ⟨rc, ⟨s.stack, h', s.faults⟩, hrc, ?_⟩
    have hrun : Returns (resolveExpression api fuel stackFrame root) s (.error rc)
      ⟨s.stack, h', s.faults⟩ := hgives s.stack s.faults
    rw [hget]
    exact hrun.bind rfl

end

/-! ## Texts that are shown in every state -/

/-- In every state in which the scan finds the keys that the expression selects where the
VM's own lookup does, and in which the value denoted can be displayed, the value shown is
the value denoted; for every frame. -/
def ShownInEveryState (watch : Bytes) (root : ExpressionNode) : Prop :=
  ∀ (H : Type) (api : SqApi H) (sc : Scene) (Here : H → Prop), Stage api sc Here →
    ∀ (lib : CppLib) (bound : Nat) (stackFrame : Int32) (s : SqVm H), Here s.heap →
      ScansAlong api sc stackFrame root →
      (∀ v, denotes sc stackFrame root = some v →
        Displayed api (renderer api lib bound) Here v) →
      ∃ N, ∀ fuel, N ≤ fuel →
        Shows api (renderer api lib bound) fuel stackFrame watch root s
          (denotes sc stackFrame root)

theorem displayed_of_text {H : Type} {api : SqApi H} {lib : CppLib} {bound : Nat}
    {Here : H → Prop} {v : SqObject} (hv : v.type ≠ .instance_)
    (htext : ∀ h, Here h → ∃ text, Gives (L3.toString api lib bound) h [v] text h [v]) :
    Displayed api (renderer api lib bound) Here v := by
  intro h hh rest faults
  obtain ⟨text, htext⟩ := htext h hh
  have hchild : ∃ value, Gives (createChildVariable api (renderer api lib bound)) h [v] value h
      [v] := gives_createChildVariable htext fun htype => absurd htype hv
  obtain ⟨value, hvalue⟩ := hchild
  exact ⟨value, _, by simp, hvalue rest faults⟩

/-- The value is shown in this state too. -/
theorem ShownInEveryState.reads_eq {H : Type} {api : SqApi H} {sc : Scene} {Here : H → Prop}
    {watch : Bytes} {root : ExpressionNode} (hshown : ShownInEveryState watch root)
    (hparse : parseWatch watch = .ok root) (hst : Stage api sc Here)
    (hlookup : LookupByScan api sc) {h : H} (hh : Here h) {stackFrame : Int32} (lib : CppLib)
    (bound : Nat)
    (hdenoted : ∀ v, denotes sc stackFrame root = some v →
      Displayed api (renderer api lib bound) Here v)
    (hread : ∀ v, reads api sc stackFrame root = some v →
      Displayed api (renderer api lib bound) Here v) :
    reads api sc stackFrame root = denotes sc stackFrame root := by
  obtain ⟨N₁, hdenotes⟩ := hshown H api sc Here hst lib bound stackFrame ⟨[], h, []⟩ hh
    (hlookup.along root) hdenoted
  obtain ⟨N₂, hreads⟩ := shows_reads (renderer api lib bound) stackFrame ⟨[], h, []⟩ hst hh hparse
    hread
  exact (hreads (max N₁ N₂) (by omega)).unique (hdenotes (max N₁ N₂) (by omega))

def ReadsAsWritten (root : ExpressionNode) : Prop :=
  (EveryChain NumberInRange root ∧ EveryChain BareLiteral root ∧ EveryChain RepeatsName root) ∨
    (¬EveryChain NumberInRange root ∧ ¬EveryChain BareLiteral root)

instance (root : ExpressionNode) : Decidable (ReadsAsWritten root) :=
  inferInstanceAs (Decidable ((EveryChain NumberInRange root ∧ EveryChain BareLiteral root ∧
    EveryChain RepeatsName root) ∨ (¬EveryChain NumberInRange root ∧ ¬EveryChain BareLiteral root)))

theorem ReadsAsWritten.reads_eq {H : Type} {api : SqApi H} {sc : Scene} {stackFrame : Int32}
    {root : ExpressionNode} (h : ReadsAsWritten root)
    (hscans : ScansAlong api sc stackFrame root) (hrooted : Rooted root)
    (htype : root.type ≠ .undefined) :
    reads api sc stackFrame root = denotes sc stackFrame root := by
  rcases h with ⟨hrange, hbare, hnames⟩ | ⟨hrange, hbare⟩
  · exact reads_eq_denotes hscans hrooted htype hrange hbare hnames
  · have hreads : reads api sc stackFrame root = none :=
      Option.eq_none_iff_forall_ne_some.mpr fun v hv => hrange (inRange_of_reads hv)
    have hdenotes : denotes sc stackFrame root = none :=
      Option.eq_none_iff_forall_ne_some.mpr fun v hv => hbare (bareLiteral_of_denotes hv)
    rw [hreads, hdenotes]

/-- The tables among some keys have a bound. -/
theorem exists_tableBound (K : List SqObject) : ∃ N, 0 < N ∧ ∀ a, .table a ∈ K → a < N := by
  induction K with
  | nil => exact ⟨1, Nat.one_pos, nofun⟩
  | cons key K ih =>
    obtain ⟨N, hpos, hN⟩ := ih
    cases key with
    | table b =>
      refine ⟨max N (b + 1), by omega, fun a ha => ?_⟩
      rcases List.mem_cons.mp ha with heq | ha
      · obtain rfl := SqObject.table.inj heq
        omega
      · have := hN a ha
        omega
    | _ =>
      refine ⟨N, hpos, fun a ha => ?_⟩
      rcases List.mem_cons.mp ha with heq | ha
      · cases heq
      · exact hN a ha

/-- Where the two readings agree on the heap of the terms, the expression reads as
it is written. -/
theorem readsAsWritten_of_termHeap {root : ExpressionNode} (hrooted : Rooted root)
    (htype : root.type ≠ .undefined) {K : List SqObject} {N : Nat}
    (hN : ∀ a, .table a ∈ K → a < N) (hown : ∀ key ∈ keys ownName root, key ∈ K)
    (hfirst : ∀ key ∈ keys firstName root, key ∈ K) {api : SqApi Heap}
    (hlookup : LookupByScan api (heapScene (termHeap K N))) {stackFrame : Int32}
    (h : reads api (heapScene (termHeap K N)) stackFrame root =
      denotes (heapScene (termHeap K N)) stackFrame root) : ReadsAsWritten root := by
  have hnode : root ≠ .null := by
    intro heq
    subst heq
    exact hrooted
  have hdenotes := denotes_term hN stackFrame hrooted htype
  have hreads := reads_term hN stackFrame hlookup hnode
  by_cases hrange : EveryChain NumberInRange root
  · left
    rw [hreads hrange hfirst] at h
    have hbare : EveryChain BareLiteral root := bareLiteral_of_denotes h.symm
    rw [hdenotes hbare hown] at h
    exact ⟨hrange, hbare, repeatsName_of_term hbare (Option.some.inj h).symm⟩
  · right
    exact ⟨hrange, fun hbare => hrange (inRange_of_reads (h.trans (hdenotes hbare hown)))⟩

/-- A first slot that fills the summary is the only one in it. -/
theorem gives_streamedFields_one {H : Type} {api : SqApi H} {toString : VmM H Bytes} {h : H}
    {o key val iter : SqObject} {keyText valText : Bytes}
    (hnext : api.advance h o (.integer 0) = (h, some (key, val, iter)))
    (hval : Gives toString h [val] valText h [val]) (hne : valText ≠ [])
    (hkey : Gives toString h [key] keyText h [key])
    (hlong : kMaxTableValueStringLength ≤ keyText.length) (n : Nat) :
    Gives (streamedFields api toString (n + 2) true (ascii "\x7b")) h [.integer 0, o]
      (ascii "\x7b" ++ keyText ++ ascii ": " ++ valText) h [iter, o] := by
  have hfield : Gives (writeTableSummaryField toString true (ascii "\x7b")) h [val, key, iter, o]
      (ascii "\x7b" ++ keyText ++ ascii ": " ++ valText) h [iter, o] := by
    refine (hval.frame [key, iter, o]).bind ?_
    rw [if_pos hne]
    exact gives_sqPoptop.bind ((hkey.frame [iter, o]).bind (gives_sqPoptop.bind (gives_pure _)))
  unfold streamedFields
  rw [if_pos (by decide)]
  refine (gives_sqNext api rfl hnext).bind ?_
  rw [if_pos rfl]
  refine hfield.bind ?_
  unfold streamedFields
  rw [if_neg (by simp only [List.length_append]; omega)]
  exact gives_pure _

/-- The summary of a table of the heap of terms ends with its first slot. -/
theorem gives_toString_padded {K : List SqObject} {N a : Nat} {h : Heap} (raw : SqObject → UInt64)
    (lib : CppLib) (ha : a < N) (hg : Grown (termHeap (padded N K) N) h) :
    ∃ text, Gives (L3.toString (heapApiWith raw) lib 3) h [.table a] text h [.table a] := by
  have hhas : Heap.Has (termHeap (padded N K) N) (.table a) := by
    simpa [Heap.Has, termHeap] using ha
  have hcount : (h.slots (.table a)).reduceOption.length = 1000 + K.length := by
    rw [hg.slots hhas, reduceOption_slots_termHeap ha, List.length_map, length_padded]
  have hsize : Gives (sqGetsize (heapApiWith raw) 1) h [.table a]
      ((h.slots (.table a)).reduceOption.length : Int) h [.table a] :=
    gives_sqGetsize (heapApiWith raw) (o := .table a) rfl
  have hnext : (heapApiWith raw).advance h (.table a) (.integer 0) =
      (h, some (padding N 0, .null, .integer 1)) := by
    obtain ⟨rest, hrest⟩ := padded_eq_cons N K
    have hfirst := heapApi_next h (.table a) 0
    rw [hg.slots hhas, slots_termHeap ha, hrest, List.map_cons, child_padding] at hfirst
    exact hfirst
  have hkey : Gives (L3.toString (heapApiWith raw) lib 2) h [padding N 0]
      (cstr (List.replicate (N + 20) 97)) h [padding N 0] :=
    (gives_sqGetstackobj rfl).bind (gives_pure _)
  have hval : Gives (L3.toString (heapApiWith raw) lib 2) h [.null] (ascii "NULL") h [.null] :=
    (gives_sqGetstackobj rfl).bind (gives_pure _)
  have hlong : kMaxTableValueStringLength ≤ (cstr (List.replicate (N + 20) 97)).length := by
    rw [cstr_eq_iff.mpr (by simp), List.length_replicate]
    exact Nat.le_add_left _ _
  have hlarge : ¬ ((h.slots (.table a)).reduceOption.length : Int) < kMaxTableSizeToSort := by
    rw [hcount]
    unfold kMaxTableSizeToSort
    omega
  have hfields : Gives (streamedFields (heapApiWith raw) (L3.toString (heapApiWith raw) lib 2) 2
      true (ascii "\x7b")) h [.integer 0, .table a] _ h [.integer 1, .table a] :=
    gives_streamedFields_one hnext hval (by decide) hkey hlong 0
  have htable : Gives (createTableSummary (heapApiWith raw) lib
      (L3.toString (heapApiWith raw) lib 2) 2) h [.table a] (ascii "\x7b" ++
        cstr (List.replicate (N + 20) 97) ++ ascii ": " ++ ascii "NULL" ++ ascii "\x7d") h
      [.table a] := by
    unfold createTableSummary
    refine hsize.bind ?_
    rw [if_neg hlarge]
    exact (gives_sqPushobject _).bind (hfields.bind (gives_sqPoptop.bind (gives_pure _)))
  have hself : Gives (sqGetstackobj 1) h [.table a] (.table a) h [.table a] :=
    gives_sqGetstackobj rfl
  exact ⟨_, hself.bind htable⟩

/-- What an expression denotes or reads as in the heap of the terms can be displayed. -/
theorem displayed_term {K : List SqObject} {N : Nat} {pick : Bytes → Bytes → Bytes}
    {root : ExpressionNode} (hroot : root ≠ .null) (raw : SqObject → UInt64) (lib : CppLib)
    (hN : ∀ a, .table a ∈ K → a < N) (hkeys : ∀ key ∈ keys pick root, key ∈ K) :
    Displayed (heapApiWith raw) (renderer (heapApiWith raw) lib 3)
      (Grown (termHeap (padded N K) N)) (term pick root) := by
  have hmem := hkeys _ (term_mem_keys pick hroot)
  cases root with
  | null => exact absurd rfl hroot
  | node type text accessor next =>
    cases type with
    | identifier =>
      exact displayed_of_text (v := .table _) nofun fun h hg =>
        gives_toString_padded raw lib (hN _ hmem) hg
    | number =>
      exact displayed_of_text (v := .integer _) nofun fun h _ =>
        ⟨_, (gives_sqGetstackobj rfl).bind (gives_pure _)⟩
    | string | undefined =>
      exact displayed_of_text (v := .string _) nofun fun h _ =>
        ⟨_, (gives_sqGetstackobj rfl).bind (gives_pure _)⟩

/-- What is shown in the heap of the terms. -/
theorem readsAsWritten_of_shown {watch : Bytes} {root : ExpressionNode}
    (hparse : parseWatch watch = .ok root) (htype : root.type ≠ .undefined) {K : List SqObject}
    (hown : ∀ key ∈ keys ownName root, key ∈ K) (hfirst : ∀ key ∈ keys firstName root, key ∈ K)
    (hK : 1000 + K.length ≤ 2 ^ 64) (hshown : ShownInEveryState watch root) :
    ReadsAsWritten root := by
  obtain ⟨N, hpos, hN⟩ := exists_tableBound K
  have hrooted := parseWatch_rooted hparse
  have hroot : root ≠ .null := by
    intro heq
    subst heq
    exact hrooted
  have hown' : ∀ key ∈ keys ownName root, key ∈ padded N K :=
    fun key hkey => List.mem_append_right _ (hown key hkey)
  have hfirst' : ∀ key ∈ keys firstName root, key ∈ padded N K :=
    fun key hkey => List.mem_append_right _ (hfirst key hkey)
  have hN' : ∀ a, .table a ∈ padded N K → a < N := fun a ha => hN a (table_mem_padded ha)
  have hst := stage_heapScene (closed_termHeap (K := padded N K) hpos) (keyRaw (padded N K))
  have hlookup := lookupByScan_heapScene (keysApart_termHeap (K := padded N K) (N := N)
    (by rw [length_padded]; exact hK))
  have hhere : Grown (termHeap (padded N K) N) (termHeap (padded N K) N) := ⟨[], by simp⟩
  have hagree : reads (heapApiWith (keyRaw (padded N K))) (heapScene (termHeap (padded N K) N))
      (-1) root = denotes (heapScene (termHeap (padded N K) N)) (-1) root := by
    refine hshown.reads_eq hparse hst hlookup hhere insertionLib 3 (fun v hv => ?_) fun v hv => ?_
    · rw [denotes_term hN' (-1) hrooted htype (bareLiteral_of_denotes hv) hown'] at hv
      obtain rfl := Option.some.inj hv
      exact displayed_term hroot _ _ hN hown
    · rw [reads_term hN' (-1) hlookup hroot (inRange_of_reads hv) hfirst'] at hv
      obtain rfl := Option.some.inj hv
      exact displayed_term hroot _ _ hN hfirst
  exact readsAsWritten_of_termHeap hrooted htype hN' hown' hfirst' hlookup hagree

/-- **A watch shows the value its text denotes, in every state in which that can be
displayed, if its expression reads as it is written; and only then.** The nodes of an
expression are objects at addresses of 64 bits. -/
theorem watch_shows_denoted {watch : Bytes} {root : ExpressionNode}
    (hparse : parseWatch watch = .ok root) (htype : root.type ≠ .undefined) :
    (ReadsAsWritten root → ShownInEveryState watch root) ∧
      (nodes root ≤ 2 ^ 61 → ShownInEveryState watch root → ReadsAsWritten root) := by
  constructor
  · intro hwritten H api sc Here hst lib bound stackFrame s hh hscans hd
    have hreads : reads api sc stackFrame root = denotes sc stackFrame root :=
      hwritten.reads_eq hscans (parseWatch_rooted hparse) htype
    rw [← hreads] at hd ⊢
    exact shows_reads (renderer api lib bound) stackFrame s hst hh hparse hd
  · intro hnodes
    have hown := (keys_length ownName root).1
    have hfirst := (keys_length firstName root).1
    exact readsAsWritten_of_shown hparse htype (K := keys ownName root ++ keys firstName root)
      (fun key hkey => List.mem_append_left _ hkey) (fun key hkey => List.mem_append_right _ hkey)
      (by rw [List.length_append]; omega)

/-! ## Two texts -/

/-- `a.a[b]`, in which the only name after a dot is the first name. -/
def repeatedName : Bytes := [97, 46, 97, 91, 98, 93]

def repeatedNameRoot : ExpressionNode :=
  .node .identifier [97] .null (.node .identifier [97] .null
    (.node .identifier [] (.node .identifier [98] .null .null) .null))

theorem watch_shows_denoted_repeatedName : ShownInEveryState repeatedName repeatedNameRoot :=
  have hparse : parseWatch repeatedName = .ok repeatedNameRoot := by decide +kernel
  (watch_shows_denoted hparse (by decide)).1 (by decide)

/-- `a.b` -/
def otherName : Bytes := [97, 46, 98]

def otherNameRoot : ExpressionNode :=
  .node .identifier [97] .null (.node .identifier [98] .null .null)

/-- The root table has a table under `a`, and that 7 under `a` and 5 under `b`. -/
def otherNameHeap : Heap where
  objects := [
    .table [some (.string [97], .table 1)],
    .table [some (.string [97], .integer 7), some (.string [98], .integer 5)]]

/-- The second name is not looked at: `a.b` is 5, and 7 is shown. -/
theorem otherName_ignored :
    parseWatch otherName = .ok otherNameRoot ∧
      Stage heapApi (heapScene otherNameHeap) (Grown otherNameHeap) ∧
      LookupByScan heapApi (heapScene otherNameHeap) ∧
      denotes (heapScene otherNameHeap) (-1) otherNameRoot = some (.integer 5) ∧
      ((result (getImmediateValue heapApi (renderer heapApi insertionLib 9) 9 (-1) otherName)
        ⟨[], otherNameHeap, []⟩).map fun shown => shown.toOption.map (·.variable_.value)) =
          some (some [55]) ∧
      ¬ShownInEveryState otherName otherNameRoot := by
  have hparse : parseWatch otherName = .ok otherNameRoot := by decide +kernel
  have hst : Stage heapApi (heapScene otherNameHeap) (Grown otherNameHeap) :=
    stage_heapScene ⟨by decide, by decide, by decide⟩ heapRaw
  have hlookup : LookupByScan heapApi (heapScene otherNameHeap) :=
    lookupByScan_heapScene (show KeysApart heapRaw otherNameHeap by decide +kernel)
  have hdenotes : denotes (heapScene otherNameHeap) (-1) otherNameRoot = some (.integer 5) := by
    decide +kernel
  refine ⟨hparse, hst, hlookup, hdenotes, by decide +kernel, fun hshown => ?_⟩
  have hreads : reads heapApi (heapScene otherNameHeap) (-1) otherNameRoot = some (.integer 7) := by
    decide +kernel
  have hnumber : ∀ n, Displayed heapApi (renderer heapApi insertionLib 9) (Grown otherNameHeap)
      (.integer n) := fun n =>
    displayed_of_text (v := .integer n) nofun fun h _ =>
      ⟨_, (gives_sqGetstackobj rfl).bind (gives_pure _)⟩
  have hsame : reads heapApi (heapScene otherNameHeap) (-1) otherNameRoot = _ :=
    hshown.reads_eq hparse hst hlookup (h := otherNameHeap) ⟨[], rfl⟩ insertionLib 9
      (fun v hv => Option.some.inj (hdenotes.symm.trans hv) ▸ hnumber 5)
      fun v hv => Option.some.inj (hreads.symm.trans hv) ▸ hnumber 7
  rw [hreads, hdenotes] at hsame
  cases hsame

end Sdb.L4
