import Batchwise.Batch.Group
import Batchwise.Proofs.Args

/-!
# Equal arguments and their fingerprints

Equality of arguments is coarser than equality of their fingerprints: the name of an enumeration
equals the text of the same characters, and the two zeros are equal.  In a normal form each such
name is a text and each zero the positive one, and there is no other difference.

* `Datum.normal`              the normal form;
* `Datum.same_iff_normal`     data are equal just when their normal forms are alike;
* `Datum.Faces`               a name of an enumeration faces a text, or a zero the other zero;
* `Datum.alike_or_faces`      equal data are alike but for that;
* `Args.same_iff_fingerprint_normal`   the same for arguments and their fingerprints.
-/

namespace Batchwise

/-! ### entries and their partners -/

namespace Entries

variable {K V W : Type} [DecidableEq K] [Nonempty W] {R : V → W → Prop}

/-- Entries under distinct keys match up in some order just when there are as many on both sides and
each has a partner under its key. -/
theorem exists_perm_forall₂_iff {as : List (K × V)} {bs : List (K × W)}
    (hnodup : (as.map Prod.fst).Nodup) :
    (∃ cs, as.Perm cs ∧ List.Forall₂ (fun e f => e.1 = f.1 ∧ R e.2 f.2) cs bs) ↔
      as.length = bs.length ∧ ∀ e ∈ as, ∃ b, find? e.1 bs = some b ∧ R e.2 b := by
  constructor
  · rintro ⟨cs, hperm, hcs⟩
    refine ⟨hperm.length_eq.trans hcs.length_eq, fun e he => ?_⟩
    have hkeys : cs.map Prod.fst = bs.map Prod.fst :=
      Datum.map_eq_map hcs fun e _ f hef => hef.1
    have hbs : (bs.map Prod.fst).Nodup := hkeys ▸ (hperm.map Prod.fst).nodup_iff.mp hnodup
    obtain ⟨i, hi, rfl⟩ := List.mem_iff_getElem.mp (hperm.mem_iff.mp he)
    obtain ⟨hkey, hvalue⟩ := hcs.get hi (hcs.length_eq ▸ hi)
    refine ⟨_, find?_of_mem hbs ?_, hvalue⟩
    rw [List.get_eq_getElem] at hkey
    rw [hkey]
    exact List.getElem_mem _
  · rintro ⟨hlength, hpartner⟩
    choose! partner hfind hvalue using hpartner
    -- the partners are entries of the other side, as many as it has and under distinct keys
    have hkeys : (as.map fun e => (e.1, partner e)).map Prod.fst = as.map Prod.fst := by
      rw [List.map_map]
      rfl
    have hsub : (as.map fun e => (e.1, partner e)) ⊆ bs := by
      intro f hf
      obtain ⟨e, he, rfl⟩ := List.mem_map.mp hf
      exact mem_of_find? (hfind e he)
    have hperm : (as.map fun e => (e.1, partner e)).Perm bs := by
      have hsubperm := List.subperm_of_subset (List.Nodup.of_map Prod.fst (hkeys ▸ hnodup)) hsub
      apply hsubperm.perm_of_length_le
      rw [List.length_map, hlength]
    have hmatch : List.Forall₂ (fun e f => e.1 = f.1 ∧ R e.2 f.2) as
        (as.map fun e => (e.1, partner e)) := by
      rw [List.forall₂_map_right_iff, List.forall₂_same]
      exact fun e he => ⟨rfl, hvalue e he⟩
    have hundo : Relation.Comp (List.Forall₂ fun e f => e.1 = f.1 ∧ R e.2 f.2) List.Perm as bs :=
      ⟨_, hmatch, hperm⟩
    rw [List.forall₂_comp_perm_eq_perm_comp_forall₂] at hundo
    exact hundo

end Entries

/-! ### numbers -/

namespace Number

/-- the positive zero in place of a zero. -/
def normal : Number → Number
  | int n => int n
  | float x => float (if x.isZero then .zero else x)

theorem same_float_iff {x y : Double} : (float x).same (float y) = true ↔
    (float x).normal = (float y).normal := by
  have hzero : (Double.zero).isZero = true := rfl
  have hsame : (float x).same (float y) = true ↔ x = y ∨ x.isZero = true ∧ y.isZero = true := by
    rw [same, Double.same, Bool.or_eq_true, Bool.and_eq_true, decide_eq_true_iff]
  rw [hsame, normal, normal, float.injEq]
  split_ifs with hx hy hy
  · exact iff_of_true (Or.inr ⟨hx, hy⟩) rfl
  · refine iff_of_false ?_ ?_
    · rintro (rfl | ⟨_, h⟩)
      · exact hy hx
      · exact hy h
    · rintro rfl
      exact hy hzero
  · refine iff_of_false ?_ ?_
    · rintro (rfl | ⟨h, _⟩)
      · exact hx hy
      · exact hx h
    · rintro rfl
      exact hx hzero
  · exact or_iff_left fun h => hx h.1

/-- **Numbers are equal just when they are one number, up to the sign of zero.** -/
theorem same_iff_normal {m n : Number} : m.same n = true ↔ m.normal = n.normal := by
  cases m with
  | int m =>
    cases n with
    | int n => simp [same, normal]
    | float y => simp [same, normal]
  | float x =>
    cases n with
    | int n => simp [same, normal]
    | float y => exact same_float_iff

end Number

namespace Datum

/-! ### normal forms -/

mutual

/-- at every depth a text in place of a name of an enumeration, and the positive zero in place of
a zero. -/
def normal : Datum → Datum
  | null => null
  | bool b => bool b
  | number n => number n.normal
  | text s => text s
  | enum name => text name
  | bytes bs => bytes bs
  | list items => list (normalItems items)
  | record entries => record (normalEntries entries)

def normalItems : List Datum → List Datum
  | [] => []
  | d :: ds => d.normal :: normalItems ds

def normalEntries : List (String × Datum) → List (String × Datum)
  | [] => []
  | (name, d) :: es => (name, d.normal) :: normalEntries es

end

theorem normalItems_eq (items : List Datum) : normalItems items = items.map normal := by
  induction items with
  | nil => rfl
  | cons d ds ih => rw [normalItems, ih, List.map_cons]

theorem normalEntries_eq (entries : List (String × Datum)) :
    normalEntries entries = entries.map fun e => (e.1, e.2.normal) := by
  induction entries with
  | nil => rfl
  | cons e es ih => rw [normalEntries, ih, List.map_cons]

theorem normal_list (items : List Datum) : (list items).normal = list (items.map normal) := by
  rw [normal, normalItems_eq]

theorem normal_record (entries : List (String × Datum)) :
    (record entries).normal = record (entries.map fun e => (e.1, e.2.normal)) := by
  rw [normal, normalEntries_eq]

theorem names_normal (entries : List (String × Datum)) :
    (entries.map fun e => (e.1, e.2.normal)).map Prod.fst = entries.map Prod.fst := by
  rw [List.map_map]
  rfl

/-- a normal form has no names of enumerations, so its text is readable whatever they were. -/
theorem plainEnums_normal (d : Datum) : d.normal.PlainEnums := by
  induction d using induction with
  | list items ih =>
    rw [normal_list]
    refine plainItems_iff.mpr fun x hx => ?_
    obtain ⟨d, hd, rfl⟩ := List.mem_map.mp hx
    exact ih d hd
  | record entries ih =>
    rw [normal_record]
    refine plainEntries_iff.mpr fun x hx => ?_
    obtain ⟨e, he, rfl⟩ := List.mem_map.mp hx
    exact ih e he
  | _ => trivial

theorem distinct_normal {d : Datum} (h : d.Distinct) : d.normal.Distinct := by
  induction d using induction with
  | list items ih =>
    have hitems := distinctItems_iff.mp h
    rw [normal_list]
    refine distinctItems_iff.mpr fun x hx => ?_
    obtain ⟨d, hd, rfl⟩ := List.mem_map.mp hx
    exact ih d hd (hitems d hd)
  | record entries ih =>
    obtain ⟨hnodup, hentries⟩ := distinct_record.mp h
    rw [normal_record, distinct_record, names_normal]
    refine ⟨hnodup, fun x hx => ?_⟩
    obtain ⟨e, he, rfl⟩ := List.mem_map.mp hx
    exact ih e he (hentries e he)
  | _ => trivial

/-! ### items and entries of equal and of alike data -/

theorem alike_iff_eq {a b : Datum} (hlist : a.kind ≠ .list) (hrecord : a.kind ≠ .record) :
    a.Alike b ↔ a = b := by
  constructor
  · intro h
    cases h with
    | list => exact absurd rfl hlist
    | record => exact absurd rfl hrecord
    | _ => rfl
  · rintro rfl
    cases a with
    | list => exact absurd rfl hlist
    | record => exact absurd rfl hrecord
    | _ => constructor

theorem same_list_iff {as bs : List Datum} : (list as).same (list bs) = true ↔
    as.length = bs.length ∧ ∀ a b, (a, b) ∈ as.zip bs → a.same b = true := by
  rw [← List.forall₂_iff_zip (R := fun a b : Datum => a.same b = true)]
  show sameItems as bs = true ↔ _
  induction as generalizing bs with
  | nil => cases bs <;> simp [sameItems]
  | cons a as ih =>
    cases bs with
    | nil => simp [sameItems]
    | cons b bs => rw [sameItems, Bool.and_eq_true, ih, List.forall₂_cons]

theorem alike_list_iff {as bs : List Datum} : (list as).Alike (list bs) ↔
    as.length = bs.length ∧ ∀ a b, (a, b) ∈ as.zip bs → a.Alike b := by
  rw [← List.forall₂_iff_zip (R := Alike)]
  constructor
  · intro h
    cases h
    assumption
  · exact Alike.list

theorem same_record_iff {as bs : List (String × Datum)} : (record as).same (record bs) = true ↔
    as.length = bs.length ∧
      ∀ e ∈ as, ∃ b, Entries.find? e.1 bs = some b ∧ e.2.same b = true := by
  have hentries : sameEntries as bs = true ↔
      ∀ e ∈ as, ∃ b, Entries.find? e.1 bs = some b ∧ e.2.same b = true := by
    induction as with
    | nil => simp [sameEntries]
    | cons e as ih =>
      rw [sameEntries, Bool.and_eq_true, ih, List.forall_mem_cons]
      cases Entries.find? e.1 bs <;> simp
  rw [same, Bool.and_eq_true, beq_iff_eq, hentries]

theorem alike_record_iff {as bs : List (String × Datum)} (hnodup : (as.map Prod.fst).Nodup) :
    (record as).Alike (record bs) ↔ as.length = bs.length ∧
      ∀ e ∈ as, ∃ b, Entries.find? e.1 bs = some b ∧ e.2.Alike b := by
  rw [← Entries.exists_perm_forall₂_iff hnodup]
  have hentry : AlikeEntry = fun e f => e.1 = f.1 ∧ e.2.Alike f.2 := by
    funext e f
    exact propext alikeEntry_iff
  rw [← hentry]
  constructor
  · intro h
    cases h with
    | record hperm hcs => exact ⟨_, hperm, hcs⟩
  · rintro ⟨cs, hperm, hcs⟩
    exact Alike.record hperm hcs

/-! ### equal data -/

theorem zip_map_iff {as bs : List Datum} {R : Datum → Datum → Prop} :
    (∀ x y, (x, y) ∈ (as.map normal).zip (bs.map normal) → R x y) ↔
      ∀ a b, (a, b) ∈ as.zip bs → R a.normal b.normal := by
  rw [List.zip_map]
  constructor
  · intro h a b hab
    exact h _ _ (List.mem_map.mpr ⟨(a, b), hab, rfl⟩)
  · intro h x y hxy
    obtain ⟨⟨a, b⟩, hab, heq⟩ := List.mem_map.mp hxy
    cases heq
    exact h a b hab

theorem find?_normal_iff {bs : List (String × Datum)} {name : String} {R : Datum → Prop} :
    (∃ x, Entries.find? name (bs.map fun e => (e.1, e.2.normal)) = some x ∧ R x) ↔
      ∃ b, Entries.find? name bs = some b ∧ R b.normal := by
  rw [Entries.find?_map_value]
  cases Entries.find? name bs <;> simp

/-- **Data are equal just when their normal forms are alike.** -/
theorem same_iff_normal {a : Datum} (hdistinct : a.Distinct) (b : Datum) :
    a.same b = true ↔ a.normal.Alike b.normal := by
  induction a using induction generalizing b with
  | list as ih =>
    have hitems := distinctItems_iff.mp hdistinct
    cases b with
    | list bs =>
      rw [same_list_iff, normal_list, normal_list, alike_list_iff, zip_map_iff, List.length_map,
        List.length_map]
      refine and_congr_right fun _ => forall₂_congr fun a b => forall_congr' fun hab => ?_
      have ha := List.of_mem_zip hab
      exact ih a ha.1 (hitems a ha.1) b
    | _ => exact iff_of_false (fun h => by cases h) (fun h => by cases h)
  | record as ih =>
    obtain ⟨hnodup, hentries⟩ := distinct_record.mp hdistinct
    cases b with
    | record bs =>
      rw [same_record_iff, normal_record, normal_record,
        alike_record_iff ((names_normal as).symm ▸ hnodup), List.length_map, List.length_map]
      refine and_congr_right fun _ => ?_
      simp only [List.forall_mem_map, find?_normal_iff]
      refine forall₂_congr fun e he => exists_congr fun b => and_congr_right fun _ => ?_
      exact ih e he (hentries e he) b
    | _ => exact iff_of_false (fun h => by cases h) (fun h => by cases h)
  | _ =>
    rw [normal, alike_iff_eq (by simp [kind]) (by simp [kind])]
    cases b <;> simp [same, normal, Number.same_iff_normal]

/-! ### where equal data differ -/

/-- at some depth, under the same names and at the same places of lists, the name of an enumeration
faces the text of its characters, or a zero faces the zero of the other sign. -/
inductive Faces : Datum → Datum → Prop
  | enum (s : String) : Faces (enum s) (text s)
  | text (s : String) : Faces (text s) (enum s)
  | zero {x y : Double} : x.isZero = true → y.isZero = true → x.negative ≠ y.negative →
    Faces (number (.float x)) (number (.float y))
  | item {as bs : List Datum} {a b : Datum} : (a, b) ∈ as.zip bs → Faces a b →
    Faces (list as) (list bs)
  | entry {as bs : List (String × Datum)} {name : String} {a b : Datum} :
    Entries.find? name as = some a → Entries.find? name bs = some b → Faces a b →
    Faces (record as) (record bs)

theorem alike_or_faces_number {m n : Number} (h : m.same n = true) :
    (number m).Alike (number n) ∨ (number m).Faces (number n) := by
  by_cases heq : m = n
  · rw [heq]
    exact Or.inl (Alike.number n)
  · right
    match m, n with
    | .int m, .int n => exact absurd (congrArg Number.int (of_decide_eq_true h)) heq
    | .float x, .float y =>
      have hzeros : x.isZero = true ∧ y.isZero = true := by
        rw [Number.same, Double.same, Bool.or_eq_true, Bool.and_eq_true] at h
        exact h.resolve_left fun hxy => heq (congrArg Number.float (of_decide_eq_true hxy))
      refine Faces.zero hzeros.1 hzeros.2 fun hnegative => heq ?_
      have hrank : x.rank = y.rank :=
        (of_decide_eq_true hzeros.1).trans (of_decide_eq_true hzeros.2).symm
      cases x
      cases y
      cases hnegative
      cases hrank
      rfl

/-- **Equal data are alike**, unless somewhere a name of an enumeration faces a text or a zero the
other zero. -/
theorem alike_or_faces {a : Datum} (hdistinct : a.Distinct) {b : Datum} (h : a.same b = true) :
    a.Alike b ∨ a.Faces b := by
  induction a using induction generalizing b with
  | number m =>
    cases b with
    | number n => exact alike_or_faces_number h
    | _ => cases h
  | list as ih =>
    have hitems := distinctItems_iff.mp hdistinct
    cases b with
    | list bs =>
      obtain ⟨hlength, hsame⟩ := same_list_iff.mp h
      by_cases hfaces : ∃ a b, (a, b) ∈ as.zip bs ∧ a.Faces b
      · obtain ⟨a, b, hab, hface⟩ := hfaces
        exact Or.inr (Faces.item hab hface)
      · refine Or.inl (alike_list_iff.mpr ⟨hlength, fun a b hab => ?_⟩)
        have ha := (List.of_mem_zip hab).1
        exact (ih a ha (hitems a ha) (hsame a b hab)).resolve_right
          fun hface => hfaces ⟨a, b, hab, hface⟩
    | _ => cases h
  | record as ih =>
    obtain ⟨hnodup, hentries⟩ := distinct_record.mp hdistinct
    cases b with
    | record bs =>
      obtain ⟨hlength, hsame⟩ := same_record_iff.mp h
      by_cases hfaces : ∃ e ∈ as, ∃ b, Entries.find? e.1 bs = some b ∧ e.2.Faces b
      · obtain ⟨e, he, b, hb, hface⟩ := hfaces
        exact Or.inr (Faces.entry (Entries.find?_of_mem hnodup he) hb hface)
      · refine Or.inl ((alike_record_iff hnodup).mpr ⟨hlength, fun e he => ?_⟩)
        obtain ⟨b, hb, hbsame⟩ := hsame e he
        exact ⟨b, hb, (ih e he (hentries e he) hbsame).resolve_right
          fun hface => hfaces ⟨e, he, b, hb, hface⟩⟩
    | _ => cases h
  | text s =>
    cases b with
    | text t => exact Or.inl (eq_of_beq h ▸ Alike.text s)
    | enum t => exact Or.inr (eq_of_beq h ▸ Faces.text s)
    | _ => cases h
  | enum s =>
    cases b with
    | text t => exact Or.inr (eq_of_beq h ▸ Faces.enum s)
    | enum t => exact Or.inl (eq_of_beq h ▸ Alike.enum s)
    | _ => cases h
  | bool s =>
    cases b with
    | bool t => exact Or.inl (eq_of_beq h ▸ Alike.bool s)
    | _ => cases h
  | bytes s =>
    cases b with
    | bytes t => exact Or.inl (eq_of_beq h ▸ Alike.bytes s)
    | _ => cases h
  | null =>
    cases b with
    | null => exact Or.inl Alike.null
    | _ => cases h

end Datum

/-! ### arguments -/

namespace Args

/-- the arguments in normal form, each under its name. -/
def normal (args : Args) : Args where
  entries := args.entries.map fun e => (e.1, e.2.normal)
  ascending := (Datum.names_normal args.entries).symm ▸ args.ascending

/-- under some name the name of an enumeration faces a text or a zero the other zero. -/
def Faces (a b : Args) : Prop :=
  ∃ name d e, a.get? name = some d ∧ b.get? name = some e ∧ d.Faces e

theorem fingerprint_normal (args : Args) :
    args.normal.fingerprint = String.ofList (Datum.record args.entries).normal.canonical := by
  rw [Datum.normal_record]
  rfl

theorem faces_of_record {a b : Args}
    (h : (Datum.record a.entries).Faces (Datum.record b.entries)) : a.Faces b := by
  cases h with
  | entry ha hb hface => exact ⟨_, _, _, ha, hb, hface⟩

theorem fingerprint_eq_or_faces {a b : Args} (hdistinct : a.Distinct) (h : a.same b = true) :
    a.fingerprint = b.fingerprint ∨ a.Faces b := by
  have hrecord := distinct_iff.mpr hdistinct
  rcases Datum.alike_or_faces hrecord h with halike | hfaces
  · exact Or.inl (congrArg String.ofList (Datum.canonical_congr halike hrecord))
  · exact Or.inr (faces_of_record hfaces)

/-- **Arguments are equal just when the fingerprints of their normal forms are**, whatever the names
of enumerations in them.  So calls with equal arguments and selections are in different groups only
where somewhere in their arguments a name of an enumeration faces a text or a zero the other
zero. -/
theorem same_iff_fingerprint_normal {a b : Args} (hdistinct : a.Distinct) :
    (a.same b = true ↔ a.normal.fingerprint = b.normal.fingerprint) ∧
    (a.same b = true → ∀ {S C : Type} (signature : Signature) (source source' : S)
      (selection selection' : Option Selection) (context context' : C),
      selection.map Selection.paths = selection'.map Selection.paths →
      (Key.ofCall signature source a selection context).groupKey ≠
        (Key.ofCall signature source' b selection' context').groupKey → a.Faces b) := by
  have hrecord := distinct_iff.mpr hdistinct
  constructor
  · rw [fingerprint_normal, fingerprint_normal, same, Datum.same_iff_normal hrecord]
    constructor
    · intro halike
      rw [Datum.canonical_congr halike (Datum.distinct_normal hrecord)]
    · intro htext
      have hread := Datum.reads_canonical _ (Datum.plainEnums_normal (.record a.entries)) _
        (Datum.plainEnums_normal (.record b.entries)) [] [] Datum.stops_nil Datum.stops_nil
        (by rw [String.ofList_injective htext])
      exact hread.1
  · intro hsame S C signature source source' selection selection' context context' hselection hkeys
    apply (fingerprint_eq_or_faces hdistinct hsame).resolve_left
    intro hfingerprint
    apply hkeys
    unfold Key.ofCall Key.groupKey
    dsimp only
    rw [hfingerprint, hselection]

/-- a list of the name of an enumeration and the negative zero -/
def named : Args := empty.insert "by" (.list [.enum "a]", .number (.float { Double.zero with negative := true })])

/-- a list of the text of this name and the positive zero -/
def quoted : Args := empty.insert "by" (.list [.text "a]", .number (.float .zero)])

theorem same_iff_fingerprint_normal_of_names :
    named.Distinct ∧ named.same quoted = true ∧
      named.normal.fingerprint = quoted.normal.fingerprint ∧
      (Key.ofCall (S := Nat) (C := Unit) ⟨true, none⟩ 1 named none ()).groupKey ≠
        (Key.ofCall (S := Nat) (C := Unit) ⟨true, none⟩ 2 quoted none ()).groupKey ∧
      named.Faces quoted := by
  have hdistinct : named.Distinct := by
    intro e he
    rw [List.mem_singleton.mp he]
    exact ⟨trivial, trivial, trivial⟩
  have hsame : named.same quoted = true := by decide
  have hkeys : (Key.ofCall (S := Nat) (C := Unit) ⟨true, none⟩ 1 named none ()).groupKey ≠
        (Key.ofCall (S := Nat) (C := Unit) ⟨true, none⟩ 2 quoted none ()).groupKey := by
    decide +kernel
  obtain ⟨hiff, hfaces⟩ := same_iff_fingerprint_normal (b := quoted) hdistinct
  exact ⟨hdistinct, hsame, hiff.mp hsame, hkeys,
    hfaces hsame ⟨true, none⟩ 1 2 none none () () rfl hkeys⟩

end Args
end Batchwise
