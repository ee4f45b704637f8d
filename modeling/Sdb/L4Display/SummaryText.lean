import Sdb.Core.Reach
import Sdb.L4Display.Runs

/-!
# The text of an object

What `ToString` is meant to show of tables, instances, arrays and scalars, with
no stack: `objectText n o`, where `n` bounds the depth of the nesting. A table shows
its fields (`fieldsText`) until its summary has reached a length; the fields
after that are not asked for their text.

`Displays o w`: to show `o`, the text of `w` is asked for. A key is asked for by
the sort of a small table, and again with its field.

* `acc_of_text`, `text_of_acc`: an object has a text exactly if it is accessible
  under `Displays`.
-/
namespace Sdb.L4

open Sdb.L1 Sdb.L3

section
variable {H : Type} (api : SqApi H) (lib : CppLib) (h : H)
variable (slots : SqObject → List (Option (SqObject × SqObject)))

/-- Tables, instances, arrays and scalars. -/
def IsData : SqObject → Prop
  | .null | .integer _ | .float _ | .bool _ | .string _ | .table _ | .array _ | .instance_ _ => True
  | _ => False

def HasFields : SqObject → Prop
  | .table _ | .instance_ _ => True
  | _ => False

/-- Small enough for its keys to be sorted. -/
def Small (o : SqObject) : Prop := api.getsize h o < kMaxTableSizeToSort

instance (o : SqObject) : Decidable (Small api h o) := inferInstanceAs (Decidable (_ < _))

/-- `ss` after a field, which is left out when the text of its value is empty. -/
def fieldText (rec : SqObject → Option Bytes) (isFirst : Bool) (e : Entry) (ss : Bytes) :
    Option Bytes :=
  (rec e.2.2).bind fun valueStr =>
    if valueStr ≠ [] then
      (rec e.2.1).map fun key =>
        (if isFirst then ss else ss ++ ascii ", ") ++ key ++ ascii ": " ++ valueStr
    else some ss

/-- The length a summary must be below for one more field, with its brace. The
test of a small table does not count the brace. -/
def limit (o : SqObject) : Nat :=
  if Small api h o then kMaxTableValueStringLength + 1 else kMaxTableValueStringLength

/-- A field comes without a comma if nothing but the brace is there, in a small
table, and if it is the first one tried, in a large one. -/
def fieldsText (rec : SqObject → Option Bytes) (o : SqObject) :
    List Entry → Bool → Bytes → Option Bytes
  | [], _, ss => some ss
  | e :: es, isFirst, ss =>
    if ss.length < limit api h o then
      (fieldText rec (if Small api h o then ss.length == 1 else isFirst) e ss).bind fun ss =>
        fieldsText rec o es false ss
    else some ss

/-- The texts of the keys with the iterators before them. -/
def keysText (rec : SqObject → Option Bytes) : List Entry → Option (List (Bytes × Int))
  | [] => some []
  | e :: es =>
    (rec e.2.1).bind fun key => (keysText rec es).map fun keys => (key, (e.1 : Int)) :: keys

/-- The entries that sorted keys lead back to. -/
def entriesOf (o : SqObject) (keys : List (Bytes × Int)) : List Entry :=
  keys.filterMap fun (_, i) => (Slots.next (slots o) i.toNat).map fun (a, _) => (i.toNat, a)

/-- The entries in the order of the summary. -/
def ordered (rec : SqObject → Option Bytes) (o : SqObject) : Option (List Entry) :=
  if Small api h o then
    (keysText rec (Slots.entries (slots o))).map fun keys => entriesOf slots o (lib.sort keys)
  else some (Slots.entries (slots o))

def summaryText (rec : SqObject → Option Bytes) (o : SqObject) : Option Bytes :=
  (ordered api lib h slots rec o).bind fun es =>
    (fieldsText api h rec o es true (ascii "\x7b")).map fun ss => ss ++ ascii "\x7d"

/-- The text of an object, nested at most `n` deep. -/
def objectText : Nat → SqObject → Option Bytes
  | 0, _ => none
  | n + 1, o =>
    match o with
    | .bool val => some (if val then ascii "true" else ascii "false")
    | .integer val => some (intText val)
    | .float val => some (lib.floatText val)
    | .string val => some (cstr val)
    | .array _ => some (ascii "\x7b size=" ++ intText (api.getsize h o) ++ ascii " \x7d")
    | .table _ | .instance_ _ => summaryText api lib h slots (objectText n) o
    | .null => some (toSqObjectTypeName .null)
    | _ => none

/-- The summary of `o`, nested at most `n` deep, comes to the field `e` with
`ss` written. -/
def Comes (n : Nat) (o : SqObject) (e : Entry) (ss : Bytes) : Prop :=
  HasFields o ∧ ss.length < limit api h o ∧
    ∃ before after, ordered api lib h slots (objectText api lib h slots n) o =
        some (before ++ e :: after) ∧
      fieldsText api h (objectText api lib h slots n) o before true (ascii "\x7b") = some ss

/-- The text of the second object is needed for that of the first. -/
inductive Displays (o : SqObject) : SqObject → Prop where
  | sortKey {e : Entry} (hf : HasFields o) (hs : Small api h o)
      (he : e ∈ Slots.entries (slots o)) : Displays o e.2.1
  | value {n : Nat} {e : Entry} {ss : Bytes} (hc : Comes api lib h slots n o e ss) :
      Displays o e.2.2
  | fieldKey {n : Nat} {e : Entry} {ss valueStr : Bytes} (hc : Comes api lib h slots n o e ss)
      (hv : objectText api lib h slots n e.2.2 = some valueStr) (hne : valueStr ≠ []) :
      Displays o e.2.1

/-! ## A deeper bound changes no text -/

/-- `rec'` knows all that `rec` knows. -/
def Extends (rec rec' : SqObject → Option Bytes) : Prop := ∀ o t, rec o = some t → rec' o = some t

variable {api lib h slots}

theorem fieldText_extends {rec rec' : SqObject → Option Bytes} (hr : Extends rec rec')
    {isFirst : Bool} {e : Entry} {ss ss' : Bytes}
    (ht : fieldText rec isFirst e ss = some ss') : fieldText rec' isFirst e ss = some ss' := by
  unfold fieldText at ht ⊢
  cases hval : rec e.2.2 with
  | none =>
    rw [hval] at ht
    cases ht
  | some valueStr =>
    rw [hval] at ht
    rw [hr _ _ hval]
    dsimp only [Option.bind_some] at ht ⊢
    split
    · rename_i hne
      rw [if_pos hne] at ht
      obtain ⟨key, hkey, hss⟩ := Option.map_eq_some_iff.mp ht
      rw [hr _ _ hkey, ← hss]
      rfl
    · rename_i hne
      rw [if_neg hne] at ht
      exact ht

theorem fieldsText_extends {rec rec' : SqObject → Option Bytes} (hr : Extends rec rec')
    {o : SqObject} {es : List Entry} {isFirst : Bool} {ss ss' : Bytes}
    (ht : fieldsText api h rec o es isFirst ss = some ss') :
    fieldsText api h rec' o es isFirst ss = some ss' := by
  induction es generalizing isFirst ss with
  | nil => exact ht
  | cons e es ih =>
    unfold fieldsText at ht ⊢
    split
    · rename_i hlt
      rw [if_pos hlt] at ht
      obtain ⟨mid, hmid, hrest⟩ := Option.bind_eq_some_iff.mp ht
      rw [fieldText_extends hr hmid]
      exact ih hrest
    · rename_i hlt
      rw [if_neg hlt] at ht
      exact ht

theorem keysText_extends {rec rec' : SqObject → Option Bytes} (hr : Extends rec rec')
    {es : List Entry} {keys : List (Bytes × Int)} (ht : keysText rec es = some keys) :
    keysText rec' es = some keys := by
  induction es generalizing keys with
  | nil => exact ht
  | cons e es ih =>
    unfold keysText at ht ⊢
    obtain ⟨key, hkey, hrest⟩ := Option.bind_eq_some_iff.mp ht
    obtain ⟨keys', hkeys', hcons⟩ := Option.map_eq_some_iff.mp hrest
    rw [hr _ _ hkey, ih hkeys', ← hcons]
    rfl

theorem ordered_extends {rec rec' : SqObject → Option Bytes} (hr : Extends rec rec')
    {o : SqObject} {es : List Entry} (ht : ordered api lib h slots rec o = some es) :
    ordered api lib h slots rec' o = some es := by
  unfold ordered at ht ⊢
  split
  · rename_i hs
    rw [if_pos hs] at ht
    obtain ⟨keys, hkeys, hes⟩ := Option.map_eq_some_iff.mp ht
    rw [keysText_extends hr hkeys, ← hes]
    rfl
  · rename_i hs
    rw [if_neg hs] at ht
    exact ht

theorem summaryText_extends {rec rec' : SqObject → Option Bytes} (hr : Extends rec rec')
    {o : SqObject} {t : Bytes} (ht : summaryText api lib h slots rec o = some t) :
    summaryText api lib h slots rec' o = some t := by
  unfold summaryText at ht ⊢
  obtain ⟨es, hes, hrest⟩ := Option.bind_eq_some_iff.mp ht
  obtain ⟨ss, hss, hbrace⟩ := Option.map_eq_some_iff.mp hrest
  rw [ordered_extends hr hes, Option.bind_some, fieldsText_extends hr hss, ← hbrace]
  rfl

theorem objectText_succ (n : Nat) :
    Extends (objectText api lib h slots n) (objectText api lib h slots (n + 1)) := by
  induction n with
  | zero => exact fun o t ht => nomatch ht
  | succ n ih =>
    intro o t ht
    cases o with
    | table a => exact summaryText_extends ih ht
    | instance_ a => exact summaryText_extends ih ht
    | _ => exact ht

theorem objectText_mono {m n : Nat} (hmn : m ≤ n) :
    Extends (objectText api lib h slots m) (objectText api lib h slots n) := by
  induction hmn with
  | refl => exact fun _ _ ht => ht
  | step _ ih => exact fun o t ht => objectText_succ _ o t (ih o t ht)

/-! ## What a text was made of -/

theorem fieldsText_append (rec : SqObject → Option Bytes) (o : SqObject) (before after : List Entry)
    (isFirst : Bool) (ss : Bytes) :
    fieldsText api h rec o (before ++ after) isFirst ss =
      (fieldsText api h rec o before isFirst ss).bind fun ss =>
        fieldsText api h rec o after (isFirst && before.isEmpty) ss := by
  induction before generalizing isFirst ss with
  | nil => simp [fieldsText]
  | cons e before ih =>
    rw [List.cons_append, fieldsText, fieldsText]
    split
    · rw [Option.bind_assoc]
      congr 1
      funext ss
      rw [ih]
      simp
    · rename_i hlt
      rw [Option.bind_some]
      cases after with
      | nil => rfl
      | cons e after => rw [fieldsText, if_neg hlt]

theorem objectText_fields {o : SqObject} (hf : HasFields o) (n : Nat) :
    objectText api lib h slots (n + 1) o =
      summaryText api lib h slots (objectText api lib h slots n) o := by
  cases o with
  | table a => rfl
  | instance_ a => rfl
  | _ => exact hf.elim

theorem keysText_mem {rec : SqObject → Option Bytes} {es : List Entry}
    {keys : List (Bytes × Int)} (ht : keysText rec es = some keys) {e : Entry} (he : e ∈ es) :
    ∃ key, rec e.2.1 = some key := by
  induction es generalizing keys with
  | nil => cases he
  | cons e' es ih =>
    obtain ⟨key, hkey, hrest⟩ := Option.bind_eq_some_iff.mp ht
    obtain ⟨keys', hkeys', -⟩ := Option.map_eq_some_iff.mp hrest
    rcases List.mem_cons.mp he with rfl | he
    · exact ⟨key, hkey⟩
    · exact ih hkeys' he

theorem fieldText_value {rec : SqObject → Option Bytes} {isFirst : Bool} {e : Entry}
    {ss ss' : Bytes} (ht : fieldText rec isFirst e ss = some ss') :
    ∃ valueStr, rec e.2.2 = some valueStr ∧ (valueStr ≠ [] → ∃ key, rec e.2.1 = some key) := by
  obtain ⟨valueStr, hval, hrest⟩ := Option.bind_eq_some_iff.mp ht
  refine ⟨valueStr, hval, fun hne => ?_⟩
  rw [if_pos hne] at hrest
  obtain ⟨key, hkey, -⟩ := Option.map_eq_some_iff.mp hrest
  exact ⟨key, hkey⟩

/-- A summary that was written has written every field it comes to. -/
theorem Comes.written {n m : Nat} {o : SqObject} {e : Entry} {ss t : Bytes}
    (hc : Comes api lib h slots m o e ss)
    (ht : summaryText api lib h slots (objectText api lib h slots n) o = some t) :
    ∃ isFirst ss', fieldText (objectText api lib h slots n) isFirst e ss = some ss' := by
  obtain ⟨-, hlt, before, after, hes, hss⟩ := hc
  obtain ⟨es, hes', hrest⟩ := Option.bind_eq_some_iff.mp ht
  obtain ⟨final, hfinal, -⟩ := Option.map_eq_some_iff.mp hrest
  -- both bounds know the same entries and the same summary
  have hn : Extends (objectText api lib h slots n) (objectText api lib h slots (max n m)) :=
    objectText_mono (Nat.le_max_left n m)
  have hm : Extends (objectText api lib h slots m) (objectText api lib h slots (max n m)) :=
    objectText_mono (Nat.le_max_right n m)
  have hsame : es = before ++ e :: after :=
    Option.some.inj ((ordered_extends hn hes').symm.trans (ordered_extends hm hes))
  rw [hsame, fieldsText_append] at hfinal
  obtain ⟨ss', hss', hfield⟩ := Option.bind_eq_some_iff.mp hfinal
  have hss'' : ss' = ss :=
    Option.some.inj ((fieldsText_extends hn hss').symm.trans (fieldsText_extends hm hss))
  rw [hss'', fieldsText, if_pos hlt] at hfield
  obtain ⟨mid, hmid, -⟩ := Option.bind_eq_some_iff.mp hfield
  exact ⟨_, mid, hmid⟩

theorem displayed_text {n : Nat} {o w : SqObject} {t : Bytes}
    (ht : objectText api lib h slots (n + 1) o = some t) (hw : Displays api lib h slots o w) :
    ∃ t', objectText api lib h slots n w = some t' := by
  cases hw with
  | sortKey hf hs he =>
    rw [objectText_fields hf] at ht
    obtain ⟨es, hes, -⟩ := Option.bind_eq_some_iff.mp ht
    rw [ordered, if_pos hs] at hes
    obtain ⟨keys, hkeys, -⟩ := Option.map_eq_some_iff.mp hes
    exact keysText_mem hkeys he
  | value hc =>
    rw [objectText_fields hc.1] at ht
    obtain ⟨isFirst, ss', hfield⟩ := hc.written ht
    obtain ⟨valueStr, hval, -⟩ := fieldText_value hfield
    exact ⟨valueStr, hval⟩
  | @fieldKey m e ss valueStr hc hv hne =>
    rw [objectText_fields hc.1] at ht
    obtain ⟨isFirst, ss', hfield⟩ := hc.written ht
    obtain ⟨valueStr', hval, hkey⟩ := fieldText_value hfield
    have hsame : valueStr' = valueStr :=
      Option.some.inj ((objectText_mono (Nat.le_max_left n m) _ _ hval).symm.trans
        (objectText_mono (Nat.le_max_right n m) _ _ hv))
    exact hkey (hsame ▸ hne)

theorem acc_of_text {n : Nat} {o : SqObject} {t : Bytes}
    (ht : objectText api lib h slots n o = some t) : Acc (flip (Displays api lib h slots)) o := by
  induction n generalizing o t with
  | zero => cases ht
  | succ n ih =>
    refine ⟨o, fun w hw => ?_⟩
    obtain ⟨t', ht'⟩ := displayed_text ht hw
    exact ih ht'

/-! ## An accessible object has a text -/

theorem keysText_exists {es : List Entry}
    (he : ∀ e ∈ es, ∃ n t, objectText api lib h slots n e.2.1 = some t) :
    ∃ n keys, keysText (objectText api lib h slots n) es = some keys := by
  induction es with
  | nil => exact ⟨0, [], rfl⟩
  | cons e es ih =>
    obtain ⟨n, key, hkey⟩ := he e List.mem_cons_self
    obtain ⟨m, keys, hkeys⟩ := ih fun e' he' => he e' (List.mem_cons_of_mem _ he')
    refine ⟨max n m, (key, (e.1 : Int)) :: keys, ?_⟩
    rw [keysText, objectText_mono (Nat.le_max_left n m) _ _ hkey,
      keysText_extends (objectText_mono (Nat.le_max_right n m)) hkeys]
    rfl

theorem Comes.mono {n m : Nat} (hnm : n ≤ m) {o : SqObject} {e : Entry} {ss : Bytes}
    (hc : Comes api lib h slots n o e ss) : Comes api lib h slots m o e ss := by
  obtain ⟨hf, hlt, before, after, hes, hss⟩ := hc
  exact ⟨hf, hlt, before, after, ordered_extends (objectText_mono hnm) hes,
    fieldsText_extends (objectText_mono hnm) hss⟩

/-- A field that the summary comes to has a text. -/
theorem fieldText_exists {o : SqObject}
    (hw : ∀ w, Displays api lib h slots o w → ∃ n t, objectText api lib h slots n w = some t)
    {m : Nat} {e : Entry} {ss : Bytes} (hc : Comes api lib h slots m o e ss) (isFirst : Bool) :
    ∃ n, m ≤ n ∧ ∃ ss', fieldText (objectText api lib h slots n) isFirst e ss = some ss' := by
  obtain ⟨n, valueStr, hval⟩ := hw _ (.value hc)
  have hval' := objectText_mono (Nat.le_max_right m n) _ _ hval
  by_cases hne : valueStr = []
  · refine ⟨max m n, Nat.le_max_left m n, ss, ?_⟩
    rw [fieldText, hval', Option.bind_some, if_neg (not_not.mpr hne)]
  · obtain ⟨k, key, hkey⟩ := hw _ (.fieldKey (hc.mono (Nat.le_max_left m n)) hval' hne)
    refine ⟨max (max m n) k, by omega,
      (if isFirst then ss else ss ++ ascii ", ") ++ key ++ ascii ": " ++ valueStr, ?_⟩
    rw [fieldText, objectText_mono (Nat.le_max_left (max m n) k) _ _ hval', Option.bind_some,
      if_pos hne, objectText_mono (Nat.le_max_right (max m n) k) _ _ hkey]
    rfl

theorem fieldsText_exists {o : SqObject} (hf : HasFields o)
    (hw : ∀ w, Displays api lib h slots o w → ∃ n t, objectText api lib h slots n w = some t)
    {n : Nat} {before after : List Entry}
    (hes : ordered api lib h slots (objectText api lib h slots n) o = some (before ++ after)) :
    ∃ m, n ≤ m ∧ ∃ ss, fieldsText api h (objectText api lib h slots m) o before true
      (ascii "\x7b") = some ss := by
  induction before using List.reverseRecOn generalizing after with
  | nil => exact ⟨n, Nat.le_refl n, _, rfl⟩
  | append_singleton before e ih =>
    rw [List.append_assoc] at hes
    obtain ⟨m, hnm, ss, hss⟩ := ih hes
    by_cases hlt : ss.length < limit api h o
    · have hc : Comes api lib h slots m o e ss :=
        ⟨hf, hlt, before, after, ordered_extends (objectText_mono hnm) hes, hss⟩
      obtain ⟨k, hmk, ss', hss'⟩ := fieldText_exists hw hc
        (if Small api h o then ss.length == 1 else before.isEmpty)
      refine ⟨k, by omega, ss', ?_⟩
      rw [fieldsText_append, fieldsText_extends (objectText_mono hmk) hss, Option.bind_some,
        fieldsText, if_pos hlt, Bool.true_and, hss']
      rfl
    · refine ⟨m, hnm, ss, ?_⟩
      rw [fieldsText_append, hss, Option.bind_some, fieldsText, if_neg hlt]

theorem summaryText_exists {o : SqObject} (hf : HasFields o)
    (hw : ∀ w, Displays api lib h slots o w → ∃ n t, objectText api lib h slots n w = some t) :
    ∃ n t, objectText api lib h slots n o = some t := by
  have hordered : ∃ n es, ordered api lib h slots (objectText api lib h slots n) o = some es := by
    by_cases hs : Small api h o
    · obtain ⟨n, keys, hkeys⟩ := keysText_exists fun e he => hw _ (.sortKey hf hs he)
      exact ⟨n, _, by rw [ordered, if_pos hs, hkeys]; rfl⟩
    · exact ⟨0, _, by rw [ordered, if_neg hs]⟩
  obtain ⟨n, es, hes⟩ := hordered
  have hes' : ordered api lib h slots (objectText api lib h slots n) o = some (es ++ []) := by
    rw [List.append_nil, hes]
  obtain ⟨m, hnm, ss, hss⟩ := fieldsText_exists hf hw hes'
  refine ⟨m + 1, ss ++ ascii "\x7d", ?_⟩
  rw [objectText_fields hf, summaryText, ordered_extends (objectText_mono hnm) hes,
    Option.bind_some, hss]
  rfl

theorem text_of_acc {G : Set SqObject} (hdata : ∀ o ∈ G, IsData o)
    (hclosed : ∀ o ∈ G, ∀ w, Displays api lib h slots o w → w ∈ G) {o : SqObject} (ho : o ∈ G)
    (hacc : Acc (flip (Displays api lib h slots)) o) :
    ∃ n t, objectText api lib h slots n o = some t := by
  induction hacc with
  | intro o _ ih =>
    have hsummary : HasFields o → ∃ n t, objectText api lib h slots n o = some t := fun hf =>
      summaryText_exists hf fun w hw => ih w hw (hclosed o ho w hw)
    cases o with
    | table a => exact hsummary trivial
    | instance_ a => exact hsummary trivial
    | null | integer | float | bool | string | array => exact ⟨1, _, rfl⟩
    | _ => exact (hdata _ ho).elim

end

end Sdb.L4
