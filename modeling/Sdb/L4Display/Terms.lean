import Sdb.L4Display.Scenes
import Mathlib.Logic.Equiv.List

/-!
# A heap that tells expressions apart

In `termHeap` every table has the same keys, and the slot of each key leads to a
table of its own: the address of a table is the path of keys from the root table
to it, coded as a number (`Nat.pair`, `keyCode`). So the value of an expression
in this heap is the expression itself, and two readings of an expression have the
same value only if they use the same keys everywhere.

`term` is that value; its argument says which key a suffix `.name` uses, the name
(`ownName`) or the text of the first node of the chain (`firstName`).

* `denotes_term`, `reads_term`: the two readings in this heap;
* `repeatsName_of_term`: the two agree only if every `.name` repeats the name its
  chain starts with;
* `keysApart_termHeap`: raw words tell the keys apart, if there are not more of
  them than words;
* `padded`: a thousand long names before the keys. With them no table is sorted, and
  the first children, all that is rendered of one, are not tables.
-/
namespace Sdb.L4

open Sdb.L1 Sdb.L3

/-! ## Keys and addresses -/

def IsKey : SqObject → Prop
  | .string _ | .table _ => True
  | .integer n => 0 ≤ n
  | _ => False

def keyCode : SqObject → Nat
  | .string s => 3 * Encodable.encode (s.map UInt8.toNat)
  | .integer n => 3 * n.toNat + 1
  | .table a => 3 * a + 2
  | _ => 0

theorem keyCode_inj {key key' : SqObject} (hk : IsKey key) (hk' : IsKey key')
    (h : keyCode key = keyCode key') : key = key' := by
  cases key with
  | string s =>
    cases key' with
    | string s' =>
      have hs : s.map UInt8.toNat = s'.map UInt8.toNat :=
        Encodable.encode_injective (Nat.eq_of_mul_eq_mul_left (by decide) h)
      rw [List.map_injective_iff.mpr (fun _ _ => UInt8.toNat_inj.mp) hs]
    | integer _ | table _ => simp only [keyCode] at h; omega
    | _ => exact hk'.elim
  | integer n =>
    cases key' with
    | integer n' =>
      have hn : (0 : Int) ≤ n := hk
      have hn' : (0 : Int) ≤ n' := hk'
      simp only [keyCode] at h
      congr 1
      omega
    | string _ | table _ => simp only [keyCode] at h; omega
    | _ => exact hk'.elim
  | table a =>
    cases key' with
    | table a' =>
      simp only [keyCode] at h
      congr 1
      omega
    | string _ | integer _ => simp only [keyCode] at h; omega
    | _ => exact hk'.elim
  | _ => exact hk.elim

/-- The value of a slot, while addresses are below `N`. -/
def child (N a : Nat) (key : SqObject) : SqObject :=
  if Nat.pair a (keyCode key) < N then .table (Nat.pair a (keyCode key)) else .null

/-- Tables with the addresses below `N` and the keys `K`. -/
def termHeap (K : List SqObject) (N : Nat) : Heap where
  objects := (List.range N).map fun a => .table (K.map fun key => some (key, child N a key))

/-- The raw word of a key is its place in `K`. -/
def keyRaw (K : List SqObject) (key : SqObject) : UInt64 := UInt64.ofNat (K.idxOf key)

theorem keyRaw_inj {K : List SqObject} (hK : K.length ≤ 2 ^ 64) {key key' : SqObject}
    (hk : key ∈ K) (hk' : key' ∈ K) (h : keyRaw K key = keyRaw K key') : key = key' := by
  have hlt := List.idxOf_lt_length_of_mem hk
  have hlt' := List.idxOf_lt_length_of_mem hk'
  have hidx : K.idxOf key = K.idxOf key' := by
    have hnat := congrArg UInt64.toNat h
    unfold keyRaw at hnat
    rwa [UInt64.toNat_ofNat_of_lt' (Nat.lt_of_lt_of_le hlt hK),
      UInt64.toNat_ofNat_of_lt' (Nat.lt_of_lt_of_le hlt' hK)] at hnat
  exact (List.idxOf_inj hk).mp hidx

section
variable {K : List SqObject} {N : Nat}

theorem slots_termHeap {a : Nat} (ha : a < N) : (termHeap K N).slots (.table a) =
    K.map fun key => some (key, child N a key) := by
  unfold Heap.slots termHeap
  simp [ha]

theorem reduceOption_slots_termHeap {a : Nat} (ha : a < N) :
    ((termHeap K N).slots (.table a)).reduceOption = K.map fun key => (key, child N a key) := by
  rw [slots_termHeap ha, reduceOption_eq, List.filterMap_map]
  exact congrFun (List.filterMap_eq_map (f := fun key => (key, child N a key))) K

theorem find_termHeap {a : Nat} (ha : a < N) {key : SqObject} (hkey : key ∈ K) :
    (termHeap K N).find (.table a) key = some (child N a key) := by
  rw [Heap.find, reduceOption_slots_termHeap ha, List.find?_map, Option.map_map]
  cases hfind : K.find? ((fun slot => decide (slot.1 = key)) ∘ fun k => (k, child N a k)) with
  | none => exact absurd (decide_eq_true rfl) (List.find?_eq_none.mp hfind key hkey)
  | some k =>
    obtain rfl : k = key := by simpa using List.find?_some hfind
    rfl

theorem closed_termHeap (hN : 0 < N) : Closed (termHeap K N) where
  root := by simpa [termHeap] using hN
  locals := by simp [termHeap]
  slots := by
    intro x hx slot hslot
    obtain ⟨a, ha, rfl⟩ := List.mem_map.mp hx
    obtain ⟨key, -, heq⟩ := List.mem_map.mp (List.reduceOption_mem_iff.mp hslot)
    obtain rfl := Option.some.inj heq
    unfold child
    dsimp only
    split
    · rename_i hlt
      simpa [Heap.Has, termHeap] using hlt
    · trivial

theorem keysApart_termHeap (hK : K.length ≤ 2 ^ 64) : KeysApart (keyRaw K) (termHeap K N) := by
  intro x hx slot hslot slot' hslot' heq
  obtain ⟨a, -, rfl⟩ := List.mem_map.mp hx
  obtain ⟨key, hkey, hsome⟩ := List.mem_map.mp (List.reduceOption_mem_iff.mp hslot)
  obtain ⟨key', hkey', hsome'⟩ := List.mem_map.mp (List.reduceOption_mem_iff.mp hslot')
  obtain rfl := Option.some.inj hsome
  obtain rfl := Option.some.inj hsome'
  exact keyRaw_inj hK hkey hkey' heq

end

/-! ## Long names -/

/-- A long name, whose code is not below `N`. -/
def padding (N i : Nat) : SqObject := .string (List.replicate (N + 20 + i) 97)

/-- The keys after a thousand long names. A table with so many slots is not sorted, and
its first slot fills its summary. -/
def padded (N : Nat) (K : List SqObject) : List SqObject := (List.range 1000).map (padding N) ++ K

theorem child_padding (N a i : Nat) : child N a (padding N i) = .null := by
  have hlength := Encodable.length_le_encode ((List.replicate (N + 20 + i) (97 : UInt8)).map
    UInt8.toNat)
  rw [List.length_map, List.length_replicate] at hlength
  have hcode : N ≤ keyCode (padding N i) := by
    show N ≤ 3 * Encodable.encode ((List.replicate (N + 20 + i) (97 : UInt8)).map UInt8.toNat)
    omega
  have hpair := Nat.le_trans hcode (Nat.right_le_pair a _)
  rw [child, if_neg (Nat.not_lt.mpr hpair)]

theorem table_mem_padded {N a : Nat} {K : List SqObject} (h : .table a ∈ padded N K) :
    .table a ∈ K := by
  rcases List.mem_append.mp h with hpad | hK
  · obtain ⟨i, -, heq⟩ := List.mem_map.mp hpad
    cases heq
  · exact hK

theorem length_padded (N : Nat) (K : List SqObject) : (padded N K).length = 1000 + K.length := by
  simp [padded]

theorem padded_eq_cons (N : Nat) (K : List SqObject) :
    ∃ rest, padded N K = padding N 0 :: rest := by
  refine ⟨(List.range 999).map (fun i => padding N (i + 1)) ++ K, ?_⟩
  rw [padded, show 1000 = 999 + 1 from rfl, List.range_succ_eq_map, List.map_cons, List.map_map,
    List.cons_append]
  rfl

/-! ## Terms -/

def ownName (_ name : Bytes) : Bytes := name

def firstName (text _ : Bytes) : Bytes := text

mutual

/-- The value of a chain in the heap of terms. -/
def term (pick : Bytes → Bytes → Bytes) : ExpressionNode → SqObject
  | .null => .null
  | .node type text _ next =>
    match type with
    | .identifier => .table (path pick text (Nat.pair 0 (keyCode (.string text))) next)
    | .number => .integer (digitsValue text)
    | .string | .undefined => .string text

/-- The table to which the suffixes lead from the table at `a`. -/
def path (pick : Bytes → Bytes → Bytes) : Bytes → Nat → ExpressionNode → Nat
  | _, a, .null => a
  | text, a, .node _ name accessor next =>
    path pick text
      (Nat.pair a (keyCode
        (if accessor = .null then .string (pick text name) else term pick accessor))) next

end

mutual

/-- The keys that are used, and the value. -/
def keys (pick : Bytes → Bytes → Bytes) : ExpressionNode → List SqObject
  | .null => []
  | .node type text accessor next =>
    .string text :: term pick (.node type text accessor next) :: suffixKeys pick text next

def suffixKeys (pick : Bytes → Bytes → Bytes) : Bytes → ExpressionNode → List SqObject
  | _, .null => []
  | text, .node _ name accessor next =>
    (if accessor = .null then [.string (pick text name)] else keys pick accessor) ++
      suffixKeys pick text next

end

/-- The number of nodes. -/
def nodes : ExpressionNode → Nat
  | .null => 0
  | .node _ _ accessor next => 1 + nodes accessor + nodes next

theorem keys_length (pick : Bytes → Bytes → Bytes) (node : ExpressionNode) :
    (keys pick node).length ≤ 2 * nodes node ∧
      ∀ text, (suffixKeys pick text node).length ≤ 2 * nodes node := by
  induction node with
  | null => exact ⟨Nat.le_refl _, fun _ => Nat.le_refl _⟩
  | node type text accessor next iha ihn =>
    constructor
    · have := ihn.2 text
      simp only [keys, nodes, List.length_cons]
      omega
    · intro text'
      have hnext := ihn.2 text'
      have hthis : (if accessor = .null then [.string (pick text' text)]
          else keys pick accessor).length ≤ 2 + 2 * nodes accessor := by
        split
        · exact Nat.le_add_right_of_le (by simp)
        · have := iha.1
          omega
      rw [suffixKeys, List.length_append, nodes]
      omega

theorem isKey_term (pick : Bytes → Bytes → Bytes) {node : ExpressionNode} (h : node ≠ .null) :
    IsKey (term pick node) := by
  cases node with
  | null => exact absurd rfl h
  | node type text accessor next =>
    cases type with
    | number => exact Int.natCast_nonneg _
    | identifier | string | undefined => trivial

theorem term_mem_keys (pick : Bytes → Bytes → Bytes) {node : ExpressionNode} (h : node ≠ .null) :
    term pick node ∈ keys pick node := by
  cases node with
  | null => exact absurd rfl h
  | node type text accessor next => exact List.mem_cons_of_mem _ List.mem_cons_self

/-- The table the suffixes start from comes before the table they lead to. -/
theorem le_path (pick : Bytes → Bytes → Bytes) (text : Bytes) (a : Nat) (node : ExpressionNode) :
    a ≤ path pick text a node := by
  induction node generalizing a with
  | null => exact Nat.le_refl _
  | node type name accessor next _ ih => exact Nat.le_trans (Nat.left_le_pair _ _) (ih _)

/-- **Two readings with the same value use the same keys everywhere.** -/
theorem repeatsName_of_term {node : ExpressionNode} (hbare : EveryChain BareLiteral node)
    (h : term ownName node = term firstName node) : EveryChain RepeatsName node := by
  have hboth : ∀ node : ExpressionNode,
      (EveryChain BareLiteral node → term ownName node = term firstName node →
        EveryChain RepeatsName node) ∧
      ∀ text a a', EveryAccessor BareLiteral node →
        path ownName text a node = path firstName text a' node →
        a = a' ∧ (∀ name ∈ dotNames node, name = text) ∧ EveryAccessor RepeatsName node := by
    intro node
    induction node with
    | null => exact ⟨fun _ _ => trivial, fun text a a' _ h => ⟨h, nofun, trivial⟩⟩
    | node type text accessor next iha ihn =>
      constructor
      · intro hbare h
        obtain ⟨hbare, hbares⟩ := hbare
        by_cases htype : type = .identifier
        · subst htype
          obtain ⟨-, hnames, hrest⟩ := ihn.2 text _ _ hbares (SqObject.table.inj h)
          exact ⟨hnames, hrest⟩
        · obtain rfl := hbare htype
          exact ⟨nofun, trivial⟩
      · intro text' a a' hbare h
        obtain ⟨hbare, hbares⟩ := hbare
        obtain ⟨hpair, hnames, hrest⟩ := ihn.2 text' _ _ hbares h
        obtain ⟨rfl, hcode⟩ := Nat.pair_eq_pair.mp hpair
        refine ⟨rfl, ?_⟩
        rw [dotNames]
        by_cases hnull : accessor = .null
        · rw [if_pos hnull] at hcode ⊢
          rw [if_pos hnull] at hcode
          have hname : text = text' := SqObject.string.inj (keyCode_inj trivial trivial hcode)
          subst hnull
          exact ⟨List.forall_mem_cons.mpr ⟨hname, hnames⟩, trivial, hrest⟩
        · rw [if_neg hnull] at hcode ⊢
          rw [if_neg hnull] at hcode
          have hterm := keyCode_inj (isKey_term _ hnull) (isKey_term _ hnull) hcode
          exact ⟨hnames, iha.1 hbare hterm, hrest⟩
  exact (hboth node).1 hbare h

/-! ## Evaluation -/

section
variable {K : List SqObject} {N : Nat} (hN : ∀ a, .table a ∈ K → a < N) {stackFrame : Int32}

theorem firstLocal_termHeap (name : Bytes) :
    firstLocal (heapScene (termHeap K N)) stackFrame name = none := by
  unfold firstLocal
  split <;> rfl

theorem slotOf_termHeap {a : Nat} {key : SqObject} (hkey : key ∈ K)
    (ha : Nat.pair a (keyCode key) < N) :
    slotOf (heapScene (termHeap K N)) (.table a) key =
      some (.table (Nat.pair a (keyCode key))) := by
  have hfind := find_termHeap (N := N) (Nat.lt_of_le_of_lt (Nat.left_le_pair a _) ha) hkey
  rw [child, if_pos ha] at hfind
  exact hfind

theorem mem_of_suffixKeys {pick : Bytes → Bytes → Bytes} {text name : Bytes}
    {accessor : ExpressionNode}
    (h : ∀ key ∈ (if accessor = .null then [.string (pick text name)] else keys pick accessor),
      key ∈ K) :
    (if accessor = .null then .string (pick text name) else term pick accessor) ∈ K := by
  by_cases hnull : accessor = .null
  · rw [if_pos hnull] at h ⊢
    exact h _ List.mem_cons_self
  · rw [if_neg hnull] at h ⊢
    exact h _ (term_mem_keys pick hnull)

include hN

variable (stackFrame)

/-- **In the heap of terms an expression denotes its term.** -/
theorem denotes_term {node : ExpressionNode} (hrooted : Rooted node)
    (htype : node.type ≠ .undefined) (hbare : EveryChain BareLiteral node)
    (hkeys : ∀ key ∈ keys ownName node, key ∈ K) :
    denotes (heapScene (termHeap K N)) stackFrame node = some (term ownName node) := by
  have hboth : ∀ node : ExpressionNode,
      (Rooted node → node.type ≠ .undefined → EveryChain BareLiteral node →
        (∀ key ∈ keys ownName node, key ∈ K) →
        denotes (heapScene (termHeap K N)) stackFrame node = some (term ownName node)) ∧
      ∀ text a, Suffixes node → EveryAccessor BareLiteral node →
        (∀ key ∈ suffixKeys ownName text node, key ∈ K) → path ownName text a node < N →
        suffixed (heapScene (termHeap K N)) stackFrame (some (.table a)) node =
          some (.table (path ownName text a node)) := by
    intro node
    induction node with
    | null => exact ⟨False.elim, fun text a _ _ _ _ => rfl⟩
    | node type text accessor next iha ihn =>
      constructor
      · intro hrooted htype hbare hkeys
        obtain ⟨-, hnext⟩ := hrooted
        obtain ⟨hbare, hbares⟩ := hbare
        obtain ⟨hfirst, hterm, hrest⟩ := List.forall_mem_cons.mp hkeys |>.imp_right
          List.forall_mem_cons.mp
        cases type with
        | identifier =>
          have hlt := hN _ hterm
          rw [denotes, rootValue, firstLocal_termHeap, Option.none_or,
            show (heapScene (termHeap K N)).root = 0 from rfl,
            slotOf_termHeap hfirst (Nat.lt_of_le_of_lt (le_path _ _ _ _) hlt)]
          exact ihn.2 text _ hnext hbares hrest hlt
        | string =>
          obtain rfl := hbare (by decide)
          rfl
        | number =>
          obtain rfl := hbare (by decide)
          rfl
        | undefined => exact absurd rfl htype
      · intro text' a hsuffixes hbare hkeys hlt
        obtain ⟨haccessor, hnext⟩ := hsuffixes
        obtain ⟨hbare, hbares⟩ := hbare
        rw [suffixKeys] at hkeys
        obtain ⟨hthis, hrest⟩ := List.forall_mem_append.mp hkeys
        have hstep := Nat.lt_of_le_of_lt (le_path ownName text' _ next) hlt
        have hkey : (if accessor = .null then some (.string text)
            else denotes (heapScene (termHeap K N)) stackFrame accessor) =
              some (if accessor = .null then .string (ownName text' text)
                else term ownName accessor) := by
          by_cases hnull : accessor = .null
          · rw [if_pos hnull, if_pos hnull]
            rfl
          · rw [if_neg hnull] at hthis
            rcases haccessor with hnull' | ⟨htype, hrooted⟩
            · exact absurd hnull' hnull
            · rw [if_neg hnull, if_neg hnull, iha.1 hrooted htype hbare hthis]
        rw [suffixed, Option.bind_some, hkey, Option.bind_some,
          slotOf_termHeap (mem_of_suffixKeys hthis) hstep]
        exact ihn.2 text' _ hnext hbares hrest hlt
  exact (hboth node).1 hrooted htype hbare hkeys

/-- **In the heap of terms an expression reads as its term with the first names.** -/
theorem reads_term {api : SqApi Heap} (hlookup : LookupByScan api (heapScene (termHeap K N)))
    {node : ExpressionNode} (hnode : node ≠ .null) (hrange : EveryChain NumberInRange node)
    (hkeys : ∀ key ∈ keys firstName node, key ∈ K) :
    reads api (heapScene (termHeap K N)) stackFrame node = some (term firstName node) := by
  have hboth : ∀ node : ExpressionNode,
      (node ≠ .null → EveryChain NumberInRange node → (∀ key ∈ keys firstName node, key ∈ K) →
        reads api (heapScene (termHeap K N)) stackFrame node = some (term firstName node)) ∧
      ∀ type text, NumberInRange type text node → EveryAccessor NumberInRange node →
        (∀ key ∈ suffixKeys firstName text node, key ∈ K) →
        ∃ ks, keysRead api (heapScene (termHeap K N)) stackFrame type text node = some ks ∧
          (type = .identifier → ∀ a, path firstName text a node < N →
            ks.foldlM (selects api (heapScene (termHeap K N))) (.table a) =
              some (.table (path firstName text a node))) := by
    have hsame : selects api (heapScene (termHeap K N)) = slotOf (heapScene (termHeap K N)) :=
      funext fun o => funext (hlookup o)
    rw [hsame]
    intro node
    induction node with
    | null => exact ⟨fun h => absurd rfl h, fun type text _ _ _ => ⟨[], rfl, fun _ a _ => rfl⟩⟩
    | node type text accessor next iha ihn =>
      constructor
      · intro _ hrange hkeys
        obtain ⟨hrange, hranges⟩ := hrange
        obtain ⟨hfirst, hterm, hrest⟩ := List.forall_mem_cons.mp hkeys |>.imp_right
          List.forall_mem_cons.mp
        obtain ⟨ks, hks, hfold⟩ := ihn.2 type text hrange hranges hrest
        rw [reads, hks]
        cases type with
        | identifier =>
          have hlt := hN _ hterm
          rw [literal, if_neg (by decide), Option.bind_some, Option.bind_some, if_pos rfl, rootRead,
            firstLocal_termHeap, Option.none_or, hsame,
            show (heapScene (termHeap K N)).root = 0 from rfl,
            slotOf_termHeap hfirst (Nat.lt_of_le_of_lt (le_path _ _ _ _) hlt), Option.bind_some]
          exact hfold rfl _ hlt
        | number =>
          have hle := hrange rfl
          rw [literal, if_pos rfl, if_neg (by omega)]
          rfl
        | string | undefined => rfl
      · intro type' text' hrange hranges hkeys
        obtain ⟨hthisRange, hranges⟩ := hranges
        rw [suffixKeys] at hkeys
        obtain ⟨hthis, hrest⟩ := List.forall_mem_append.mp hkeys
        obtain ⟨ks, hks, hfold⟩ := ihn.2 type' text' hrange hranges hrest
        have hkey : ∃ key, (if accessor = .null then literal type' text'
            else reads api (heapScene (termHeap K N)) stackFrame accessor) = some key ∧
              (type' = .identifier → key = if accessor = .null then
                .string (firstName text' text) else term firstName accessor) := by
          by_cases hnull : accessor = .null
          · rw [if_pos hnull, if_pos hnull, literal]
            split
            · rename_i htype
              have hle := hrange htype
              rw [if_neg (by omega)]
              exact ⟨_, rfl, fun htype' => by rw [htype] at htype'; cases htype'⟩
            · exact ⟨_, rfl, fun _ => rfl⟩
          · rw [if_neg hnull] at hthis
            rw [if_neg hnull, if_neg hnull, iha.1 hnull hthisRange hthis]
            exact ⟨_, rfl, fun _ => rfl⟩
        obtain ⟨key, hread, hkey⟩ := hkey
        refine ⟨key :: ks, ?_, fun htype a hlt => ?_⟩
        · rw [keysRead, hread, hks]
          rfl
        · have hstep := Nat.lt_of_le_of_lt (le_path firstName text' _ next) hlt
          rw [List.foldlM_cons, hkey htype]
          rw [slotOf_termHeap (mem_of_suffixKeys hthis) hstep]
          exact hfold htype _ hlt
  exact (hboth node).1 hnode hrange hkeys

end

end Sdb.L4
