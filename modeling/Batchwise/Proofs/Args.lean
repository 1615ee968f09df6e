import Batchwise.Proofs.Datum.Canonical
import Batchwise.Proofs.Table

/-!
# What a fingerprint tells

The fingerprint of an argument set is the canonical text of its arguments as one record.  Names
are ascending in every argument set, so alike records of arguments are alike name by name.

* `Args.alike_iff`            alike as records, alike as argument sets;
* `Args.fingerprint_eq_iff`   equal fingerprints are those of alike argument sets.
-/

namespace Batchwise

/-! ### entries name by name -/

namespace Datum

theorem alike_of_find? {as bs : List (String × Datum)} (h : List.Forall₂ AlikeEntry as bs)
    {name : String} {a b : Datum} (ha : Entries.find? name as = some a)
    (hb : Entries.find? name bs = some b) : a.Alike b := by
  induction h with
  | nil => cases ha
  | @cons e f es fs hef _ ih =>
    rw [Entries.find?_cons] at ha hb
    by_cases hname : e.1 = name
    · rw [if_pos hname] at ha
      rw [if_pos (hef.name_eq ▸ hname)] at hb
      cases ha
      cases hb
      exact hef.alike
    · rw [if_neg hname] at ha
      rw [if_neg (hef.name_eq ▸ hname)] at hb
      exact ih ha hb

theorem forall₂_of_find? {as bs : List (String × Datum)} (hnodup : (as.map Prod.fst).Nodup)
    (hnames : as.map Prod.fst = bs.map Prod.fst)
    (h : ∀ name a b, Entries.find? name as = some a → Entries.find? name bs = some b → a.Alike b) :
    List.Forall₂ AlikeEntry as bs := by
  induction as generalizing bs with
  | nil =>
    cases bs with
    | nil => exact List.Forall₂.nil
    | cons f bs => cases hnames
  | cons e as ih =>
    cases bs with
    | nil => cases hnames
    | cons f bs =>
      obtain ⟨hname, hrest⟩ := List.cons.inj hnames
      obtain ⟨hnot, hnodup⟩ := List.nodup_cons.mp hnodup
      apply List.Forall₂.cons
      · apply alikeEntry_iff.mpr
        refine ⟨hname, h e.1 e.2 f.2 ?_ ?_⟩
        · rw [Entries.find?_cons, if_pos rfl]
        · rw [Entries.find?_cons, if_pos hname.symm]
      · apply ih hnodup hrest
        intro name a b ha hb
        -- a later entry has another name, so the lookup passes the first ones by
        have hne : e.1 ≠ name := by
          rintro rfl
          have hmem := Entries.mem_of_find? ha
          exact hnot (List.mem_map.mpr ⟨_, hmem, rfl⟩)
        apply h name a b
        · rw [Entries.find?_cons, if_neg hne, ha]
        · rw [Entries.find?_cons, if_neg (hname ▸ hne), hb]

end Datum

/-! ### argument sets -/

namespace Args

/-- every name of an enumeration, at any depth, is plain. -/
def PlainEnums (args : Args) : Prop := ∀ e ∈ args.entries, e.2.PlainEnums

/-- no record in the arguments has two entries of one name; a record that is written entry by
entry never has (`Datum.distinct_ofEntries`). -/
def Distinct (args : Args) : Prop := ∀ e ∈ args.entries, e.2.Distinct

/-- the same names, and alike data under each -/
structure Alike (a b : Args) : Prop where
  names : a.entries.map Prod.fst = b.entries.map Prod.fst
  values : ∀ name d e, a.get? name = some d → b.get? name = some e → d.Alike e

theorem nodup_names (args : Args) : (args.entries.map Prod.fst).Nodup := by
  apply List.Pairwise.imp _ args.ascending
  intro m n hlt heq
  rw [heq] at hlt
  exact String.lt_irrefl n hlt

theorem plainEnums_iff {args : Args} :
    (Datum.record args.entries).PlainEnums ↔ args.PlainEnums := Datum.plainEntries_iff

theorem distinct_iff {args : Args} : (Datum.record args.entries).Distinct ↔ args.Distinct := by
  rw [Datum.distinct_record]
  exact and_iff_right args.nodup_names

/-- As both are in ascending order, the entries of alike records of arguments match one by one. -/
theorem forall₂_of_alike {a b : Args} (h : (Datum.record a.entries).Alike (.record b.entries)) :
    List.Forall₂ Datum.AlikeEntry a.entries b.entries := by
  cases h with
  | @record _ es _ hperm hes =>
    have hnames : es.map Prod.fst = b.entries.map Prod.fst :=
      Datum.map_eq_map hes fun e _ f hef => hef.name_eq
    have hsorted : (es.map Prod.fst).Pairwise (· < ·) := hnames ▸ b.ascending
    have heq : a.entries = es := by
      apply hperm.eq_of_pairwise _ (List.pairwise_map.mp a.ascending) (List.pairwise_map.mp hsorted)
      intro e f _ _ hef hfe
      exact absurd (String.lt_trans hef hfe) (String.lt_irrefl _)
    rw [heq]
    exact hes

theorem alike_iff {a b : Args} :
    (Datum.record a.entries).Alike (.record b.entries) ↔ a.Alike b := by
  constructor
  · intro h
    have hes := forall₂_of_alike h
    exact ⟨Datum.map_eq_map hes fun e _ f hef => hef.name_eq,
      fun name d e hd he => Datum.alike_of_find? hes hd he⟩
  · intro h
    exact Datum.Alike.record (List.Perm.refl _)
      (Datum.forall₂_of_find? a.nodup_names h.names h.values)

/-- **Equal fingerprints are those of alike argument sets.**  Plain names of enumerations are what
makes a text readable; distinct names in records are what makes it the same for both orders. -/
theorem fingerprint_eq_iff {a b : Args} (ha : a.PlainEnums) (hb : b.PlainEnums)
    (hdistinct : a.Distinct) : a.fingerprint = b.fingerprint ↔ a.Alike b := by
  rw [← alike_iff]
  constructor
  · intro h
    have htext := String.ofList_injective h
    have hread := Datum.reads_canonical _ (plainEnums_iff.mpr ha) _ (plainEnums_iff.mpr hb) [] []
      Datum.stops_nil Datum.stops_nil (by rw [htext])
    exact hread.1
  · intro h
    unfold fingerprint
    rw [Datum.canonical_congr h (distinct_iff.mpr hdistinct)]

/-- a filter, its two conditions in one order -/
def filtered : Args :=
  empty.insert "filter" (.record [("order", .enum "ASC"), ("age", .list [.number (.int 3)])])

/-- the same filter, its conditions in the other order -/
def refiltered : Args :=
  empty.insert "filter" (.record [("age", .list [.number (.int 3)]), ("order", .enum "ASC")])

theorem alike_refiltered : filtered.Alike refiltered := by
  have hage : Datum.Alike (.list [.number (.int 3)]) (.list [.number (.int 3)]) :=
    .list (.cons (.number _) .nil)
  have hrecord : Datum.Alike (.record [("order", .enum "ASC"), ("age", .list [.number (.int 3)])])
      (.record [("age", .list [.number (.int 3)]), ("order", .enum "ASC")]) :=
    .record (List.Perm.swap _ _ _) (.cons (.mk "age" hage) (.cons (.mk "order" (.enum _)) .nil))
  apply alike_iff.mp
  exact .record (List.Perm.refl _) (.cons (.mk "filter" hrecord) .nil)

theorem fingerprint_eq_iff_of_filters :
    filtered.PlainEnums ∧ refiltered.PlainEnums ∧ filtered.Distinct ∧
      filtered.fingerprint = refiltered.fingerprint := by
  have hplain : Datum.IsPlain "ASC" := by
    show ∀ c ∈ ['A', 'S', 'C'], c ≠ ',' ∧ c ≠ ']' ∧ c ≠ '\x7d'
    simp
  have ha : filtered.PlainEnums := by
    intro e he
    rw [List.mem_singleton.mp he]
    exact ⟨hplain, ⟨trivial, trivial⟩, trivial⟩
  have hb : refiltered.PlainEnums := by
    intro e he
    rw [List.mem_singleton.mp he]
    exact ⟨⟨trivial, trivial⟩, hplain, trivial⟩
  have hdistinct : filtered.Distinct := by
    intro e he
    rw [List.mem_singleton.mp he]
    exact ⟨by decide, trivial, ⟨trivial, trivial⟩, trivial⟩
  exact ⟨ha, hb, hdistinct, (fingerprint_eq_iff ha hb hdistinct).mpr alike_refiltered⟩

end Args
end Batchwise
