import Batchwise.Args
import Batchwise.Proofs.Datum.Alike
import Batchwise.Proofs.Number
import Batchwise.Proofs.Text.Quoted
import Mathlib.Data.List.Nodup
import Mathlib.Data.List.Perm.Basic

/-!
# Canonical text is uniquely readable

A canonical text shows its kind in its first two characters and its end in what stands behind it:
a comma, a closing bracket or brace, or nothing.  So of two texts with anything of that sort
behind them, equal as a whole, the data are alike and the remainders equal.

* `Datum.joinCommas_inj`    items between commas are read one by one;
* `Datum.reads_canonical`   data of one text are alike;
* `Datum.canonical_congr`   alike data have one text.
-/

namespace Batchwise.Datum

/-! ### where a text ends -/

/-- a character that stands behind a value -/
def isStop (c : Char) : Bool := c == ',' || c == ']' || c == '\x7d'

/-- what stands behind a value: one of these characters, or nothing -/
def Stops (cs : List Char) : Prop := ∀ c ∈ cs.head?, isStop c = true

/-- text without these characters -/
def Bare (cs : List Char) : Prop := ∀ c ∈ cs, isStop c = false

theorem stops_nil : Stops [] := fun c hc => by cases hc

theorem stops_cons {c : Char} {cs : List Char} (h : isStop c = true) : Stops (c :: cs) := by
  intro d hd
  cases hd
  exact h

theorem bare_inj {as bs cs ds : List Char} (ha : Bare as) (hb : Bare bs) (hc : Stops cs)
    (hd : Stops ds) (h : as ++ cs = bs ++ ds) : as = bs ∧ cs = ds := by
  have hread : ∀ {xs ys : List Char}, Bare xs → Stops ys →
      (xs ++ ys).takeWhile (fun c => !isStop c) = xs ∧
        (xs ++ ys).dropWhile (fun c => !isStop c) = ys := by
    intro xs ys hx hy
    apply takeWhile_stop
    · intro c hc
      rw [hx c hc]
      rfl
    · intro c hc
      rw [hy c hc]
      rfl
  obtain ⟨h1, h2⟩ := hread ha hc
  obtain ⟨h3, h4⟩ := hread hb hd
  rw [h] at h1 h2
  exact ⟨h1.symm.trans h3, h2.symm.trans h4⟩

theorem not_isStop_of_numeric {c : Char} (h : isNumeric c = true) : isStop c = false := by
  by_contra hstop
  simp only [isStop, Bool.not_eq_false, Bool.or_eq_true, beq_iff_eq] at hstop
  rcases hstop with (rfl | rfl) | rfl <;> exact absurd h (by decide)

theorem bare_number (n : Number) : Bare n.text :=
  fun c hc => not_isStop_of_numeric (n.numeric_text c hc)

theorem bare_enum {name : String} (h : IsPlain name) : Bare name.toList := by
  intro c hc
  obtain ⟨h1, h2, h3⟩ := h c hc
  simp [isStop, h1, h2, h3]

theorem bare_bool (b : Bool) : Bare (bool b).canonical := by
  cases b
  · show ∀ c ∈ ['f', 'a', 'l', 's', 'e'], isStop c = false
    simp [isStop]
  · show ∀ c ∈ ['t', 'r', 'u', 'e'], isStop c = false
    simp [isStop]

/-! ### bytes -/

/-- the text of bytes behind the `0x` -/
def bytesText (bs : List UInt8) : List Char := bs.flatMap fun b => Text.hexByte b.toNat

theorem not_isStop_hexDigit {n : Nat} (h : n < 16) : isStop (Text.hexDigit n) = false := by
  revert n
  decide

theorem bare_bytes (bs : List UInt8) : Bare (bytesText bs) := by
  intro c hc
  obtain ⟨b, _, hc⟩ := List.mem_flatMap.mp hc
  have hb : b.toNat < 256 := b.toNat_lt
  rcases List.mem_cons.mp hc with rfl | hc
  · exact not_isStop_hexDigit (by omega)
  · rw [List.mem_singleton.mp hc]
    exact not_isStop_hexDigit (by omega)

theorem bytesText_inj {as bs : List UInt8} (h : bytesText as = bytesText bs) : as = bs := by
  induction as generalizing bs with
  | nil =>
    cases bs with
    | nil => rfl
    | cons b bs => cases h
  | cons a as ih =>
    cases bs with
    | nil => cases h
    | cons b bs =>
      have hsplit : Text.hexByte a.toNat ++ bytesText as = Text.hexByte b.toNat ++ bytesText bs := h
      obtain ⟨hbyte, hrest⟩ := List.append_inj hsplit rfl
      have hab := Text.hexByte_inj a.toNat_lt b.toNat_lt hbyte
      rw [UInt8.toNat_inj.mp hab, ih hrest]

/-! ### kinds -/

/-- the kinds of data -/
inductive Kind
  | null | bool | number | text | enum | bytes | list | record
deriving DecidableEq

def kind : Datum → Kind
  | null => .null
  | bool _ => .bool
  | number _ => .number
  | text _ => .text
  | enum _ => .enum
  | bytes _ => .bytes
  | list _ => .list
  | record _ => .record

/-- the kind that a text begins with -/
def readKind : List Char → Kind
  | '"' :: _ => .text
  | '#' :: _ => .enum
  | '[' :: _ => .list
  | '\x7b' :: _ => .record
  | 'n' :: _ => .null
  | 't' :: _ => .bool
  | 'f' :: _ => .bool
  | '0' :: 'x' :: _ => .bytes
  | _ => .number

theorem readKind_of_head {c : Char} {cs : List Char} (hc : c = '-' ∨ c.isDigit = true)
    (hx : ∀ ds, cs ≠ 'x' :: ds) : readKind (c :: cs) = .number := by
  unfold readKind
  split
  case h_8 ds heq =>
    cases heq
    exact absurd rfl (hx ds)
  case h_9 => rfl
  all_goals
    rename_i heq
    cases heq
    exact absurd hc (by decide)

/-- a number is not taken for bytes: what stands behind its first digit is no `x`. -/
theorem readKind_number (n : Number) {cs : List Char} (h : Stops cs) :
    readKind (n.text ++ cs) = .number := by
  obtain ⟨c, rest, htext, hc⟩ := n.text_head
  rw [htext, List.cons_append]
  apply readKind_of_head hc
  intro ds heq
  cases rest with
  | nil =>
    rw [List.nil_append] at heq
    rw [heq] at h
    exact absurd (h 'x' rfl) (by decide)
  | cons d rest =>
    have hd := n.numeric_text d (by rw [htext]; simp)
    cases heq
    exact absurd hd (by decide)

theorem readKind_canonical (d : Datum) {cs : List Char} (h : Stops cs) :
    readKind (d.canonical ++ cs) = d.kind := by
  cases d with
  | bool b => cases b <;> rfl
  | number n => exact readKind_number n h
  | record entries => rfl
  | _ => rfl

theorem kind_eq {a b : Datum} {cs ds : List Char} (hc : Stops cs) (hd : Stops ds)
    (h : a.canonical ++ cs = b.canonical ++ ds) : a.kind = b.kind := by
  rw [← readKind_canonical a hc, ← readKind_canonical b hd, h]

/-! ### items between commas -/

theorem joinCommas_cons (t : List Char) (ts : List (List Char)) :
    joinCommas (t :: ts) = t ++ ts.flatMap (fun u => ',' :: u) := by
  induction ts generalizing t with
  | nil => simp [joinCommas]
  | cons u ts ih => rw [joinCommas, ih, List.flatMap_cons, List.cons_append]

section
variable {A : Type} {text : A → List Char} {P : A → Prop} {R : A → A → Prop} {close : Char}

/-- among the `b` with `P b` the text of `a` is read back up to `R`. -/
def Reads (text : A → List Char) (P : A → Prop) (R : A → A → Prop) (a : A) : Prop :=
  ∀ b, P b → ∀ cs ds, Stops cs → Stops ds → text a ++ cs = text b ++ ds → R a b ∧ cs = ds

theorem stops_rest (hclose : isStop close = true) (as : List A) (cs : List Char) :
    Stops (as.flatMap (fun a => ',' :: text a) ++ close :: cs) := by
  cases as with
  | nil => exact stops_cons hclose
  | cons a as => exact stops_cons rfl

theorem rest_inj (hclose : isStop close = true) (hcomma : close ≠ ',') {as bs : List A}
    (hread : ∀ a ∈ as, Reads text P R a) (hbs : ∀ b ∈ bs, P b) {cs ds : List Char}
    (h : as.flatMap (fun a => ',' :: text a) ++ close :: cs
      = bs.flatMap (fun b => ',' :: text b) ++ close :: ds) :
    List.Forall₂ R as bs ∧ cs = ds := by
  induction as generalizing bs with
  | nil =>
    cases bs with
    | nil => exact ⟨List.Forall₂.nil, (List.cons.inj h).2⟩
    | cons b bs => exact absurd (List.cons.inj h).1 hcomma
  | cons a as ih =>
    cases bs with
    | nil => exact absurd (List.cons.inj h).1.symm hcomma
    | cons b bs =>
      rw [List.flatMap_cons, List.flatMap_cons, List.append_assoc, List.append_assoc] at h
      obtain ⟨hab, hrest⟩ := hread a List.mem_cons_self b
        (hbs b List.mem_cons_self) _ _ (stops_rest hclose as cs)
        (stops_rest hclose bs ds) (List.cons.inj h).2
      obtain ⟨habs, hend⟩ := ih (fun x hx => hread x (List.mem_cons_of_mem a hx))
        (fun x hx => hbs x (List.mem_cons_of_mem b hx)) hrest
      exact ⟨List.Forall₂.cons hab habs, hend⟩

/-- Items between commas are read one by one, up to the bracket behind them. -/
theorem joinCommas_inj (hclose : isStop close = true) (hcomma : close ≠ ',') {as bs : List A}
    (hread : ∀ a ∈ as, Reads text P R a) (hbs : ∀ b ∈ bs, P b)
    (hhead : ∀ a, ∃ c rest, text a = c :: rest ∧ isStop c = false) {cs ds : List Char}
    (h : joinCommas (as.map text) ++ close :: cs = joinCommas (bs.map text) ++ close :: ds) :
    List.Forall₂ R as bs ∧ cs = ds := by
  cases as with
  | nil =>
    cases bs with
    | nil => exact ⟨List.Forall₂.nil, (List.cons.inj h).2⟩
    | cons b bs =>
      obtain ⟨c, rest, hb, hc⟩ := hhead b
      rw [List.map_cons, joinCommas_cons, hb] at h
      rw [(List.cons.inj h).1, hc] at hclose
      cases hclose
  | cons a as =>
    cases bs with
    | nil =>
      obtain ⟨c, rest, ha, hc⟩ := hhead a
      rw [List.map_cons, joinCommas_cons, ha] at h
      rw [← (List.cons.inj h).1, hc] at hclose
      cases hclose
    | cons b bs =>
      rw [List.map_cons, List.map_cons, joinCommas_cons, joinCommas_cons, List.append_assoc,
        List.append_assoc, List.flatMap_map, List.flatMap_map] at h
      obtain ⟨hab, hrest⟩ := hread a List.mem_cons_self b
        (hbs b List.mem_cons_self) _ _ (stops_rest hclose as cs)
        (stops_rest hclose bs ds) h
      obtain ⟨habs, hend⟩ :=
        rest_inj hclose hcomma (fun x hx => hread x (List.mem_cons_of_mem a hx))
          (fun x hx => hbs x (List.mem_cons_of_mem b hx)) hrest
      exact ⟨List.Forall₂.cons hab habs, hend⟩

end

/-! ### lists and records -/

/-- an entry with the text of its value -/
def entryCanonical (e : String × Datum) : List Char := entryText (e.1, e.2.canonical)

theorem canonicalItems_eq (items : List Datum) : canonicalItems items = items.map canonical := by
  induction items with
  | nil => rfl
  | cons d ds ih => rw [canonicalItems, ih, List.map_cons]

theorem canonicalEntries_eq (entries : List (String × Datum)) :
    canonicalEntries entries = entries.map fun e => (e.1, e.2.canonical) := by
  induction entries with
  | nil => rfl
  | cons e es ih => rw [canonicalEntries, ih, List.map_cons]

theorem canonical_list (items : List Datum) :
    (list items).canonical = '[' :: (joinCommas (items.map canonical) ++ [']']) := by
  rw [canonical, canonicalItems_eq]

/-- the entries are sorted before they are written. -/
theorem canonical_record (entries : List (String × Datum)) :
    (record entries).canonical =
      '\x7b' :: (joinCommas ((Args.sortByName entries).map entryCanonical) ++ ['\x7d']) := by
  have hsort := List.map_mergeSort (r := Args.nameLe)
    (s := fun a b : String × List Char => decide (a.1 ≤ b.1))
    (f := fun e : String × Datum => (e.1, e.2.canonical)) (l := entries) (fun _ _ _ _ => rfl)
  rw [canonical, canonicalEntries_eq, recordText, ← hsort, List.map_map]
  rfl

theorem canonical_head (d : Datum) : ∃ c rest, d.canonical = c :: rest ∧ isStop c = false := by
  cases d with
  | null => exact ⟨'n', _, rfl, rfl⟩
  | bool b =>
    cases b
    · exact ⟨'f', _, rfl, rfl⟩
    · exact ⟨'t', _, rfl, rfl⟩
  | number n =>
    obtain ⟨c, rest, htext, _⟩ := n.text_head
    exact ⟨c, rest, htext, bare_number n c (by rw [htext]; exact List.mem_cons_self)⟩
  | text s => exact ⟨'"', _, rfl, rfl⟩
  | enum name => exact ⟨'#', _, rfl, rfl⟩
  | bytes bs => exact ⟨'0', _, rfl, rfl⟩
  | list items => exact ⟨'[', _, rfl, rfl⟩
  | record entries => exact ⟨'\x7b', _, rfl, rfl⟩

theorem entryCanonical_head (e : String × Datum) :
    ∃ c rest, entryCanonical e = c :: rest ∧ isStop c = false :=
  ⟨'"', _, rfl, rfl⟩

/-- a quoted name and the colon behind it are read before the value. -/
theorem reads_entry {e : String × Datum} (h : Reads canonical PlainEnums Alike e.2) :
    Reads entryCanonical (fun f => f.2.PlainEnums) AlikeEntry e := by
  intro f hf cs ds hcs hds heq
  unfold entryCanonical entryText at heq
  rw [List.append_assoc, List.append_assoc] at heq
  obtain ⟨hname, hvalue⟩ := Text.quote_inj heq
  obtain ⟨halike, hend⟩ := h f.2 hf cs ds hcs hds (List.cons.inj hvalue).2
  exact ⟨alikeEntry_iff.mpr ⟨String.toList_inj.mp hname, halike⟩, hend⟩

/-! ### reading -/

theorem reads_list {as : List Datum} (h : ∀ a ∈ as, Reads canonical PlainEnums Alike a) :
    Reads canonical PlainEnums Alike (list as) := by
  intro b hb cs ds hcs hds heq
  have hkind := kind_eq hcs hds heq
  cases b with
  | list bs =>
    rw [canonical_list, canonical_list, List.cons_append, List.cons_append, List.append_assoc,
      List.append_assoc] at heq
    obtain ⟨halike, hend⟩ := joinCommas_inj rfl (by decide) h (plainItems_iff.mp hb)
      canonical_head (List.cons.inj heq).2
    exact ⟨Alike.list halike, hend⟩
  | _ => cases hkind

theorem reads_record {as : List (String × Datum)}
    (h : ∀ e ∈ as, Reads canonical PlainEnums Alike e.2) :
    Reads canonical PlainEnums Alike (record as) := by
  intro b hb cs ds hcs hds heq
  have hkind := kind_eq hcs hds heq
  cases b with
  | record bs =>
    rw [canonical_record, canonical_record, List.cons_append, List.cons_append,
      List.append_assoc, List.append_assoc] at heq
    have hentries : ∀ e ∈ Args.sortByName as,
        Reads entryCanonical (fun f => f.2.PlainEnums) AlikeEntry e := by
      intro e he
      exact reads_entry (h e (List.mem_mergeSort.mp he))
    have hplain : ∀ f ∈ Args.sortByName bs, f.2.PlainEnums := by
      intro f hf
      exact plainEntries_iff.mp hb f (List.mem_mergeSort.mp hf)
    obtain ⟨halike, hend⟩ := joinCommas_inj rfl (by decide) hentries hplain entryCanonical_head
      (List.cons.inj heq).2
    -- both orders are undone: the second one on its own side of the relation
    have hundo : Relation.Comp (List.Forall₂ AlikeEntry) List.Perm (Args.sortByName as) bs :=
      ⟨Args.sortByName bs, halike, List.mergeSort_perm bs _⟩
    rw [List.forall₂_comp_perm_eq_perm_comp_forall₂] at hundo
    obtain ⟨es, hperm, hes⟩ := hundo
    exact ⟨Alike.record ((List.mergeSort_perm as _).symm.trans hperm) hes, hend⟩
  | _ => cases hkind

/-- **Data of one text are alike, whatever stands behind them.** -/
theorem reads_canonical (a : Datum) (ha : a.PlainEnums) : Reads canonical PlainEnums Alike a := by
  induction a using Datum.induction with
  | null =>
    intro b hb cs ds hcs hds h
    have hkind := kind_eq hcs hds h
    cases b with
    | null => exact ⟨Alike.null, List.append_cancel_left h⟩
    | _ => cases hkind
  | bool a =>
    intro b hb cs ds hcs hds h
    have hkind := kind_eq hcs hds h
    cases b with
    | bool b =>
      obtain ⟨htext, hend⟩ := bare_inj (bare_bool a) (bare_bool b) hcs hds h
      have hab : a = b := by revert htext; cases a <;> cases b <;> decide
      rw [hab]
      exact ⟨Alike.bool b, hend⟩
    | _ => cases hkind
  | number m =>
    intro b hb cs ds hcs hds h
    have hkind := kind_eq hcs hds h
    cases b with
    | number n =>
      obtain ⟨htext, hend⟩ := bare_inj (bare_number m) (bare_number n) hcs hds h
      rw [Number.text_injective htext]
      exact ⟨Alike.number n, hend⟩
    | _ => cases hkind
  | text s =>
    intro b hb cs ds hcs hds h
    have hkind := kind_eq hcs hds h
    cases b with
    | text t =>
      obtain ⟨htext, hend⟩ := Text.quote_inj h
      rw [String.toList_inj.mp htext]
      exact ⟨Alike.text t, hend⟩
    | _ => cases hkind
  | enum name =>
    intro b hb cs ds hcs hds h
    have hkind := kind_eq hcs hds h
    cases b with
    | enum name' =>
      obtain ⟨htext, hend⟩ :=
        bare_inj (bare_enum ha) (bare_enum hb) hcs hds (List.cons.inj h).2
      rw [String.toList_inj.mp htext]
      exact ⟨Alike.enum name', hend⟩
    | _ => cases hkind
  | bytes as =>
    intro b hb cs ds hcs hds h
    have hkind := kind_eq hcs hds h
    cases b with
    | bytes bs =>
      obtain ⟨htext, hend⟩ := bare_inj (bare_bytes as) (bare_bytes bs) hcs hds
        (List.cons.inj (List.cons.inj h).2).2
      rw [bytesText_inj htext]
      exact ⟨Alike.bytes bs, hend⟩
    | _ => cases hkind
  | list as ih =>
    apply reads_list
    intro d hd
    exact ih d hd (plainItems_iff.mp ha d hd)
  | record as ih =>
    apply reads_record
    intro e he
    exact ih e he (plainEntries_iff.mp ha e he)

/-! ### alike data have one text -/

theorem map_eq_map {A B C : Type} {R : A → B → Prop} {f : A → C} {g : B → C} {as : List A}
    {bs : List B} (h : List.Forall₂ R as bs) (hfg : ∀ a ∈ as, ∀ b, R a b → f a = g b) :
    as.map f = bs.map g := by
  induction h with
  | nil => rfl
  | cons hab _ ih =>
    rw [List.map_cons, List.map_cons, hfg _ List.mem_cons_self _ hab,
      ih fun a ha => hfg a (List.mem_cons_of_mem _ ha)]

theorem sortByName_perm {es fs : List (String × Datum)} (hperm : es.Perm fs)
    (hnodup : (es.map Prod.fst).Nodup) : Args.sortByName es = Args.sortByName fs := by
  have hsort : (Args.sortByName es).Perm (Args.sortByName fs) :=
    (List.mergeSort_perm es _).trans (hperm.trans (List.mergeSort_perm fs _).symm)
  apply hsort.eq_of_pairwise _ (Args.pairwise_sortByName es) (Args.pairwise_sortByName fs)
  intro e f he hf hef hfe
  have he' : e ∈ es := List.mem_mergeSort.mp he
  have hf' : f ∈ es := hperm.mem_iff.mpr (List.mem_mergeSort.mp hf)
  exact List.inj_on_of_nodup_map hnodup he' hf' (String.le_antisymm hef hfe)

/-- **Alike data have one text.** -/
theorem canonical_congr {a b : Datum} (h : a.Alike b) (hdistinct : a.Distinct) :
    a.canonical = b.canonical := by
  induction a using Datum.induction generalizing b with
  | list as ih =>
    cases h with
    | list h =>
      have hitems := distinctItems_iff.mp hdistinct
      rw [canonical_list, canonical_list,
        map_eq_map h fun a ha b hab => ih a ha hab (hitems a ha)]
  | record as ih =>
    cases h with
    | record hperm h =>
      obtain ⟨hnodup, hentries⟩ := distinct_record.mp hdistinct
      rw [canonical_record, sortByName_perm hperm hnodup, ← canonical_record, canonical, canonical,
        canonicalEntries_eq, canonicalEntries_eq]
      congr 1
      apply map_eq_map h
      intro e he f hef
      have he' := hperm.mem_iff.mpr he
      rw [hef.name_eq, ih e he' hef.alike (hentries e he')]
  | _ =>
    cases h
    rfl

end Batchwise.Datum
