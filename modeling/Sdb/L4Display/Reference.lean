import Sdb.L3Vm.Accepted
import Sdb.L4Display.Runs

/-!
# What a watch text denotes

`Scene` is the paused VM as a watch sees it: the locals of each stack level, the
root table, the slots of the objects and the VM's own key lookup. `denotes` is
the value of a parsed expression in it. `Stage` says that the VM's answers are
those of the scene, and stay so while the debugger makes temporary tables.

`reads` is the expression as `GetImmediateValue` reads it. It differs in

* the suffix `.name`, which selects by the text of the first node of its chain;
* the suffixes of a string literal, which are dropped, though the expressions in
  them need to have values;
* numbers above 2147483647, which have no value;
* the selection in a table or an instance, which yields the first slot whose key
  has the same raw word, if the lookup finds anything (`selects`).

`reads_eq_denotes`: an expression with none of these reads as it is written.
`inRange_of_reads`, `bareLiteral_of_denotes`: a number out of range has no value
as it is read, and a literal with a suffix has none as it is written.
-/
namespace Sdb.L4

open Sdb.L1 Sdb.L3

structure Scene where
  /-- The objects of the script; a temporary table is none of them. -/
  live : SqObject → Prop
  slots : SqObject → List (Option (SqObject × SqObject))
  /-- The VM's own key lookup. -/
  lookup : SqObject → SqObject → Option SqObject
  locals : Nat → List (Bytes × SqObject)
  root : Nat

section
variable {H : Type} (api : SqApi H) (sc : Scene)

/-- A heap with a table of one slot at `t`. -/
structure OneSlot (h : H) (t : Nat) (key val : SqObject) : Prop where
  get : api.get h (.table t) key = (h, some val)
  next : ∃ slots : List (Option (SqObject × SqObject)), slots.filterMap id = [(key, val)] ∧
    ∀ i : Nat, api.advance h (.table t) (.integer i) =
      (h, (Slots.next slots i).map fun ((key, val), j) => (key, val, .integer j))

/-- The heaps in `Here` show the scene. -/
structure Stage (Here : H → Prop) : Prop where
  roottable : ∀ h, Here h → api.roottable h = sc.root
  getlocal : ∀ h, Here h → ∀ level n, api.getlocal h level n = (sc.locals level)[n]?
  next : ∀ h, Here h → ∀ o, sc.live o → ∀ i : Nat, api.advance h o (.integer i) =
    (h, (Slots.next (sc.slots o) i).map fun ((key, val), j) => (key, val, .integer j))
  get : ∀ h, Here h → ∀ o, sc.live o → ∀ key, api.get h o key = (h, sc.lookup o key)
  liveRoot : sc.live (.table sc.root)
  liveLocal : ∀ level, ∀ l ∈ sc.locals level, sc.live l.2
  liveSlot : ∀ o, sc.live o → ∀ a, some a ∈ sc.slots o → sc.live a.2
  liveLookup : ∀ o, sc.live o → ∀ key val, sc.lookup o key = some val → sc.live val
  newtable : ∀ h, Here h → Here (api.newtable h).1
  rawset : ∀ h, Here h → ∀ s val, sc.live val →
    Here (api.rawset (api.newtable h).1 (api.newtable h).2 (.string s) val) ∧
      OneSlot api (api.rawset (api.newtable h).1 (api.newtable h).2 (.string s) val)
        (api.newtable h).2 (.string s) val

/-! ## The value of an expression -/

/-- A slot of a table, an instance or an array. -/
def slotOf (o key : SqObject) : Option SqObject :=
  match o with
  | .array _ | .table _ | .instance_ _ => sc.lookup o key
  | _ => none

def firstLocal (stackFrame : Int32) (name : Bytes) : Option SqObject :=
  if 0 ≤ stackFrame.toInt then
    ((sc.locals stackFrame.toInt.toNat).find? (cstr ·.1 = name)).map (·.2)
  else none

variable (stackFrame : Int32)

def rootValue (type : ExpressionNodeType) (text : Bytes) : Option SqObject :=
  match type with
  | .identifier => (firstLocal sc stackFrame text).or (slotOf sc (.table sc.root) (.string text))
  | .string => some (.string text)
  | .number => some (.integer (digitsValue text))
  | .undefined => none

mutual

/-- The value of a chain. -/
def denotes : ExpressionNode → Option SqObject
  | .null => none
  | .node type text _ next => suffixed (rootValue sc stackFrame type text) next

/-- The value so far after the suffixes that are left. -/
def suffixed : Option SqObject → ExpressionNode → Option SqObject
  | value, .null => value
  | value, .node _ name accessor next =>
    suffixed
      (value.bind fun o =>
        (if accessor = .null then some (.string name) else denotes accessor).bind (slotOf sc o))
      next

end

/-! ## The expression as it is read -/

/-- The selection in `GetObjectFromExpression`. -/
def selects (o key : SqObject) : Option SqObject :=
  match o with
  | .array _ => if key.isNumeric then sc.lookup o key else none
  | .table _ | .instance_ _ =>
    (sc.lookup o key).bind fun _ =>
      ((Slots.entries (sc.slots o)).find? fun e => api.raw e.2.1 = api.raw key).map (·.2.2)
  | _ => none

def literal (type : ExpressionNodeType) (text : Bytes) : Option SqObject :=
  if type = .number then
    if 2147483647 < digitsValue text then none else some (.integer (digitsValue text))
  else some (.string text)

def rootRead (text : Bytes) : Option SqObject :=
  (firstLocal sc stackFrame text).or (selects api sc (.table sc.root) (.string text))

mutual

def reads : ExpressionNode → Option SqObject
  | .null => none
  | .node type text _ next =>
    (literal type text).bind fun first =>
      (keysRead type text next).bind fun keys =>
        if type = .identifier then
          (rootRead api sc stackFrame text).bind fun o => keys.foldlM (selects api sc) o
        else some first

/-- The keys of the suffixes of a chain that starts with this node. -/
def keysRead : ExpressionNodeType → Bytes → ExpressionNode → Option (List SqObject)
  | _, _, .null => some []
  | type, text, .node _ _ accessor next =>
    (if accessor = .null then literal type text else reads accessor).bind fun key =>
      (keysRead type text next).map (key :: ·)

end

/-! ## Expressions that read as written -/

mutual

/-- Every chain meets `P`: its type, the text of its first node and its suffixes. -/
def EveryChain (P : ExpressionNodeType → Bytes → ExpressionNode → Prop) : ExpressionNode → Prop
  | .null => True
  | .node type text _ next => P type text next ∧ EveryAccessor P next

def EveryAccessor (P : ExpressionNodeType → Bytes → ExpressionNode → Prop) :
    ExpressionNode → Prop
  | .null => True
  | .node _ _ accessor next => EveryChain P accessor ∧ EveryAccessor P next

end

section
variable {P : ExpressionNodeType → Bytes → ExpressionNode → Prop}
  [∀ type text next, Decidable (P type text next)]

mutual

instance decidableEveryChain : (node : ExpressionNode) → Decidable (EveryChain P node)
  | .null => .isTrue trivial
  | .node type text _ next =>
    have := decidableEveryAccessor next
    inferInstanceAs (Decidable (P type text next ∧ EveryAccessor P next))

instance decidableEveryAccessor : (node : ExpressionNode) → Decidable (EveryAccessor P node)
  | .null => .isTrue trivial
  | .node _ _ accessor next =>
    have := decidableEveryChain accessor
    have := decidableEveryAccessor next
    inferInstanceAs (Decidable (EveryChain P accessor ∧ EveryAccessor P next))

end

end

/-- The names of the suffixes `.name` of a chain. -/
def dotNames : ExpressionNode → List Bytes
  | .null => []
  | .node _ name accessor next =>
    if accessor = .null then name :: dotNames next else dotNames next

/-- A number is at most 2147483647. -/
def NumberInRange (type : ExpressionNodeType) (text : Bytes) (_ : ExpressionNode) : Prop :=
  type = .number → digitsValue text ≤ 2147483647

/-- No suffix follows a string or a number. -/
def BareLiteral (type : ExpressionNodeType) (_ : Bytes) (next : ExpressionNode) : Prop :=
  type ≠ .identifier → next = .null

/-- Every suffix `.name` repeats the name its chain starts with. -/
def RepeatsName (_ : ExpressionNodeType) (text : Bytes) (next : ExpressionNode) : Prop :=
  ∀ name ∈ dotNames next, name = text

instance (type : ExpressionNodeType) (text : Bytes) (next : ExpressionNode) :
    Decidable (NumberInRange type text next) :=
  inferInstanceAs (Decidable (type = .number → digitsValue text ≤ 2147483647))

instance (type : ExpressionNodeType) (text : Bytes) (next : ExpressionNode) :
    Decidable (BareLiteral type text next) :=
  inferInstanceAs (Decidable (type ≠ .identifier → next = .null))

instance (type : ExpressionNodeType) (text : Bytes) (next : ExpressionNode) :
    Decidable (RepeatsName type text next) :=
  inferInstanceAs (Decidable (∀ name ∈ dotNames next, name = text))

/-- The scan finds what the lookup finds. -/
def FoundByScan (o key : SqObject) : Prop := selects api sc o key = slotOf sc o key

/-- So it does in every container. -/
def LookupByScan : Prop := ∀ o key, FoundByScan api sc o key

mutual

/-- So it does wherever the expression selects. -/
def ScansAlong : ExpressionNode → Prop
  | .null => True
  | .node type text _ next =>
    (type = .identifier → firstLocal sc stackFrame text = none →
        FoundByScan api sc (.table sc.root) (.string text)) ∧
      ScansFrom (rootValue sc stackFrame type text) next

def ScansFrom : Option SqObject → ExpressionNode → Prop
  | _, .null => True
  | value, .node _ name accessor next =>
    ScansAlong accessor ∧
      (∀ o ∈ value, ∀ key ∈ if accessor = .null then some (.string name)
        else denotes sc stackFrame accessor, FoundByScan api sc o key) ∧
      ScansFrom (value.bind fun o =>
        (if accessor = .null then some (.string name)
          else denotes sc stackFrame accessor).bind (slotOf sc o)) next

end

variable {api sc stackFrame}

theorem LookupByScan.along (hlookup : LookupByScan api sc) (node : ExpressionNode) :
    ScansAlong api sc stackFrame node := by
  have hboth : ∀ node : ExpressionNode, ScansAlong api sc stackFrame node ∧
      ∀ value, ScansFrom api sc stackFrame value node := by
    intro node
    induction node with
    | null => exact ⟨trivial, fun _ => trivial⟩
    | node type text accessor next iha ihn =>
      refine ⟨⟨fun _ _ => hlookup _ _, ihn.2 _⟩, fun value => ⟨iha.1, ?_, ihn.2 _⟩⟩
      intro o _ key _
      exact hlookup o key
  exact (hboth node).1

/-- A chain of selections, all keys first. -/
theorem suffixed_cons (value key : Option SqObject) (keys : Option (List SqObject))
    (select : SqObject → SqObject → Option SqObject) :
    (keys.bind fun keys => (value.bind fun o => key.bind (select o)).bind fun o =>
        keys.foldlM select o) =
      (key.bind fun key => keys.map (key :: ·)).bind fun keys => value.bind fun o =>
        keys.foldlM select o := by
  cases value <;> cases key <;> cases keys <;> simp [List.foldlM_cons]

/-- What is selected is found by the scan. -/
theorem selected_eq {value key : Option SqObject}
    (hscans : ∀ o ∈ value, ∀ k ∈ key, FoundByScan api sc o k) :
    (value.bind fun o => key.bind (slotOf sc o)) =
      value.bind fun o => key.bind (selects api sc o) := by
  cases value with
  | none => rfl
  | some o =>
    cases key with
    | none => rfl
    | some k => exact (hscans o rfl k rfl).symm

/-- **An expression without the differences reads as it is written.** -/
theorem reads_eq_denotes {node : ExpressionNode} (hscans : ScansAlong api sc stackFrame node)
    (hrooted : Rooted node) (htype : node.type ≠ .undefined)
    (hrange : EveryChain NumberInRange node) (hbare : EveryChain BareLiteral node)
    (hnames : EveryChain RepeatsName node) :
    reads api sc stackFrame node = denotes sc stackFrame node := by
  have hboth : ∀ node : ExpressionNode,
      (ScansAlong api sc stackFrame node → Rooted node → node.type ≠ .undefined →
        EveryChain NumberInRange node → EveryChain BareLiteral node →
          EveryChain RepeatsName node →
            reads api sc stackFrame node = denotes sc stackFrame node) ∧
      ∀ text value, ScansFrom api sc stackFrame value node → Suffixes node →
        EveryAccessor NumberInRange node →
        EveryAccessor BareLiteral node →
        EveryAccessor RepeatsName node →
        (∀ name ∈ dotNames node, name = text) →
        suffixed sc stackFrame value node =
          (keysRead api sc stackFrame .identifier text node).bind fun keys =>
            value.bind fun o => keys.foldlM (selects api sc) o := by
    intro node
    induction node with
    | null => exact ⟨fun _ => False.elim, fun text value _ _ _ _ _ _ => by cases value <;> rfl⟩
    | node type text accessor next iha ihn =>
      constructor
      · intro hscans hrooted htype hrange hbare hnames
        obtain ⟨hroot, hfrom⟩ := hscans
        obtain ⟨-, hnext⟩ := hrooted
        obtain ⟨hrange, hranges⟩ := hrange
        obtain ⟨hbare, hbares⟩ := hbare
        obtain ⟨hname, hnames⟩ := hnames
        cases type with
        | identifier =>
          have hvalue : rootRead api sc stackFrame text =
              rootValue sc stackFrame .identifier text := by
            unfold rootRead rootValue
            cases hfirst : firstLocal sc stackFrame text with
            | some v => rfl
            | none => exact hroot rfl hfirst
          rw [reads, denotes, ihn.2 text _ hfrom hnext hranges hbares hnames hname, hvalue]
          rfl
        | string =>
          obtain rfl := hbare (by decide)
          rfl
        | number =>
          obtain rfl := hbare (by decide)
          rw [reads, denotes, literal, if_pos rfl, if_neg (by have := hrange rfl; omega)]
          rfl
        | undefined => exact absurd rfl htype
      · intro text' value hscans hsuffixes hrange hbare hnames hdots
        obtain ⟨halong, hmet, hfrom⟩ := hscans
        obtain ⟨haccessor, hnext⟩ := hsuffixes
        obtain ⟨hrange, hranges⟩ := hrange
        obtain ⟨hbare, hbares⟩ := hbare
        obtain ⟨hname, hnames⟩ := hnames
        rw [dotNames] at hdots
        by_cases hnull : accessor = .null
        · rw [if_pos hnull] at hdots
          rw [suffixed, keysRead, ihn.2 text' _ hfrom hnext hranges hbares hnames
            fun name hname => hdots name (List.mem_cons_of_mem _ hname), selected_eq hmet,
            suffixed_cons, if_pos hnull, if_pos hnull, hdots text List.mem_cons_self]
          rfl
        · rw [if_neg hnull] at hdots
          rcases haccessor with hnull' | ⟨htype, hrooted⟩
          · exact absurd hnull' hnull
          · rw [suffixed, keysRead, ihn.2 text' _ hfrom hnext hranges hbares hnames hdots,
              selected_eq hmet, suffixed_cons, if_neg hnull, if_neg hnull,
              iha.1 halong hrooted htype hrange hbare hname]
  exact (hboth node).1 hscans hrooted htype hrange hbare hnames

/-! ## Expressions without a value -/

/-- A number out of range has no value as it is read, in no state. -/
theorem inRange_of_reads {node : ExpressionNode} {v : SqObject}
    (h : reads api sc stackFrame node = some v) : EveryChain NumberInRange node := by
  have hboth : ∀ node : ExpressionNode,
      (∀ v, reads api sc stackFrame node = some v → EveryChain NumberInRange node) ∧
      ∀ type text keys, keysRead api sc stackFrame type text node = some keys →
        EveryAccessor NumberInRange node := by
    intro node
    induction node with
    | null => exact ⟨fun v _ => trivial, fun type text keys _ => trivial⟩
    | node type text accessor next iha ihn =>
      constructor
      · intro v h
        rw [reads] at h
        obtain ⟨first, hfirst, h⟩ := Option.bind_eq_some_iff.mp h
        obtain ⟨keys, hkeys, -⟩ := Option.bind_eq_some_iff.mp h
        refine ⟨fun htype => ?_, ihn.2 type text keys hkeys⟩
        rw [literal, if_pos htype] at hfirst
        split at hfirst
        · cases hfirst
        · omega
      · intro type' text' keys h
        rw [keysRead] at h
        obtain ⟨key, hkey, h⟩ := Option.bind_eq_some_iff.mp h
        obtain ⟨rest, hrest, -⟩ := Option.map_eq_some_iff.mp h
        refine ⟨?_, ihn.2 type' text' rest hrest⟩
        by_cases hnull : accessor = .null
        · rw [hnull]
          trivial
        · rw [if_neg hnull] at hkey
          exact iha.1 key hkey
  exact (hboth node).1 v h

theorem suffixed_none (node : ExpressionNode) : suffixed sc stackFrame none node = none := by
  induction node with
  | null => rfl
  | node type text accessor next _ ih =>
    rw [suffixed]
    exact ih

/-- A literal with a suffix has no value, in no state. -/
theorem bareLiteral_of_denotes {node : ExpressionNode} {v : SqObject}
    (h : denotes sc stackFrame node = some v) : EveryChain BareLiteral node := by
  have hboth : ∀ node : ExpressionNode,
      (∀ v, denotes sc stackFrame node = some v → EveryChain BareLiteral node) ∧
      ∀ value v, suffixed sc stackFrame value node = some v →
        EveryAccessor BareLiteral node := by
    intro node
    induction node with
    | null => exact ⟨fun v _ => trivial, fun value v _ => trivial⟩
    | node type text accessor next iha ihn =>
      constructor
      · intro v h
        rw [denotes] at h
        refine ⟨fun htype => ?_, ihn.2 _ v h⟩
        cases next with
        | null => rfl
        | node type' name accessor' next' =>
          exfalso
          have hslot : ((rootValue sc stackFrame type text).bind fun o =>
              (if accessor' = .null then some (.string name)
                else denotes sc stackFrame accessor').bind (slotOf sc o)) = none := by
            cases type with
            | identifier => exact absurd rfl htype
            | undefined => rfl
            | string | number =>
              cases (if accessor' = .null then some (.string name)
                else denotes sc stackFrame accessor') <;> rfl
          rw [suffixed, hslot, suffixed_none] at h
          cases h
      · intro value v h
        rw [suffixed] at h
        refine ⟨?_, ihn.2 _ v h⟩
        by_cases hnull : accessor = .null
        · rw [hnull]
          trivial
        · rw [if_neg hnull] at h
          cases hvalue : denotes sc stackFrame accessor with
          | some key => exact iha.1 key hvalue
          | none =>
            rw [hvalue] at h
            have hnone : (value.bind fun o => (none : Option SqObject).bind (slotOf sc o)) =
                none := by
              cases value <;> rfl
            rw [hnone, suffixed_none] at h
            cases h
  exact (hboth node).1 v h

end

end Sdb.L4
