import Mathlib.Data.List.Infix

/-!
# Fields between separators, with quotes

`fields sep quote s` splits a text at the separators that are outside quotes. A text is read with a
flag for being inside quotes, which every quote flips (`inside`); a text is `Whole` if it is one
field and its quotes are paired. Text written as whole fields behind a text is read back as these
fields (`fields_append_keyed`), and a field that is read back by its key, wherever it stands, is
whole (`whole_of_filter`), as is the text before it (`closed_of_filter`).
-/

namespace Lib.Fields

variable {α : Type*} [DecidableEq α]

/-- Whether a text that is begun inside quotes, or not, ends inside quotes. -/
def inside (quote : α) : Bool → List α → Bool
  | q, [] => q
  | q, c :: s => inside quote (if c = quote then !q else q) s

/-- The field that a text begins with, and those after it. -/
def cut (sep quote : α) : Bool → List α → List α × List (List α)
  | _, [] => ([], [])
  | q, c :: s =>
    if c = sep ∧ q = false then
      let r := cut sep quote false s
      ([], r.1 :: r.2)
    else
      let r := cut sep quote (if c = quote then !q else q) s
      (c :: r.1, r.2)

/-- The fields of a text. -/
def fields (sep quote : α) (s : List α) : List (List α) :=
  (cut sep quote false s).1 :: (cut sep quote false s).2

/-- A text whose quotes are paired and that has separators inside of quotes only. -/
structure Whole (sep quote : α) (s : List α) : Prop where
  closed : inside quote false s = false
  shielded : ∀ a b, s = a ++ sep :: b → inside quote false a = true

/-- A text with no separator and no quote in it. -/
structure Bare (sep quote : α) (s : List α) : Prop where
  sep : sep ∉ s
  quote : quote ∉ s

/-- Keys with their values, each behind a separator. -/
def keyed (sep : α) (kvs : List (List α × List α)) : List α :=
  kvs.flatMap fun kv => sep :: (kv.1 ++ kv.2)

variable {sep quote : α} {q : Bool} {u v : List α}

/-! ## Quotes -/

/-- Nothing opens or closes quotes. -/
@[simp]
theorem inside_nil (q : Bool) : inside quote q ([] : List α) = q := rfl

/-- A quote opens or closes, and any other character leaves the quotes as they are. -/
theorem inside_cons (q : Bool) (c : α) (s : List α) :
    inside quote q (c :: s) = inside quote (if c = quote then !q else q) s := rfl

/-- Reading goes on with what the part before has left open. -/
theorem inside_append (q : Bool) (u v : List α) :
    inside quote q (u ++ v) = inside quote (inside quote q u) v := by
  induction u generalizing q with
  | nil => rfl
  | cons c u ih => exact ih _

/-- Where a text ends depends on where it begins. -/
theorem inside_eq_xor (q : Bool) (u : List α) : inside quote q u = (q ^^ inside quote false u) := by
  induction u generalizing q with
  | nil => simp
  | cons c u ih =>
    rw [inside_cons, inside_cons, ih (if c = quote then !q else q),
      ih (if c = quote then !false else false)]
    split <;> cases q <;> simp

/-- Without a quote nothing opens or closes. -/
theorem inside_of_notMem (h : quote ∉ u) (q : Bool) : inside quote q u = q := by
  induction u generalizing q with
  | nil => rfl
  | cons c u ih =>
    have hc : c ≠ quote := fun hc => h (by simp [hc])
    rw [inside_cons, if_neg hc]
    exact ih (fun hu => h (by simp [hu])) q

/-- What has neither separators nor quotes is whole. -/
theorem Bare.whole (h : Bare sep quote u) : Whole sep quote u := by
  refine ⟨inside_of_notMem h.quote false, fun a b hab => absurd ?_ h.sep⟩
  simp [hab]

/-- A text with nothing but a key before it is whole or not as the text is. -/
theorem whole_append_iff {k : List α} (hk : Bare sep quote k) :
    Whole sep quote (k ++ u) ↔ Whole sep quote u := by
  have hinside : ∀ a, inside quote false (k ++ a) = inside quote false a := by
    intro a
    rw [inside_append, inside_of_notMem hk.quote]
  constructor
  · intro h
    refine ⟨hinside u ▸ h.closed, fun a b hab => ?_⟩
    rw [← hinside]
    exact h.shielded (k ++ a) b (by simp [hab])
  · intro h
    refine ⟨(hinside u).trans h.closed, fun a b hab => ?_⟩
    rcases List.append_eq_append_iff.mp hab with ⟨c, rfl, hu⟩ | ⟨c, rfl, hc⟩
    · rw [hinside]
      exact h.shielded c b hu
    · cases c with
      | nil => exact absurd (h.shielded [] b hc.symm) (by simp)
      | cons d c =>
        obtain ⟨rfl, -⟩ := List.cons.inj hc
        exact absurd (by simp) hk.sep

/-- Values whose quotes are paired leave the quotes before them as they are. -/
theorem inside_append_keyed (hsep : sep ≠ quote) {kvs : List (List α × List α)}
    (h : ∀ kv ∈ kvs, inside quote false (kv.1 ++ kv.2) = false) (q : Bool) (u : List α) :
    inside quote q (u ++ keyed sep kvs) = inside quote q u := by
  induction kvs generalizing u with
  | nil => simp [keyed]
  | cons kv kvs ih =>
    obtain ⟨hkv, hkvs⟩ := List.forall_mem_cons.mp h
    have hsplit : u ++ keyed sep (kv :: kvs) = u ++ sep :: (kv.1 ++ kv.2) ++ keyed sep kvs := by
      simp [keyed]
    rw [hsplit, ih hkvs, inside_append, inside_cons, if_neg hsep, inside_eq_xor, hkv,
      Bool.xor_false]

/-! ## Cutting -/

/-- Nothing is cut into nothing. -/
@[simp]
theorem cut_nil (q : Bool) : cut sep quote q [] = ([], []) := rfl

/-- A separator outside quotes ends the field, and any other character is part of it. -/
theorem cut_cons (q : Bool) (c : α) (s : List α) : cut sep quote q (c :: s) =
    if c = sep ∧ q = false then
      ([], fields sep quote s)
    else
      (c :: (cut sep quote (if c = quote then !q else q) s).1,
        (cut sep quote (if c = quote then !q else q) s).2) := rfl

/-- A text that ends outside quotes is followed by the fields of the rest. -/
theorem fields_append_cons (hsep : sep ≠ quote) (h : inside quote false u = false) (v : List α) :
    fields sep quote (u ++ sep :: v) = fields sep quote u ++ fields sep quote v := by
  have hcut : ∀ q, inside quote q u = false →
      cut sep quote q (u ++ sep :: v) =
        ((cut sep quote q u).1, (cut sep quote q u).2 ++ fields sep quote v) := by
    clear h
    induction u with
    | nil =>
      intro q hq
      obtain rfl : q = false := hq
      simp [cut_cons, fields]
    | cons c u ih =>
      intro q hq
      rw [inside_cons] at hq
      rw [List.cons_append, cut_cons, cut_cons]
      by_cases hc : c = sep ∧ q = false
      · obtain ⟨rfl, rfl⟩ := hc
        rw [if_neg hsep] at hq
        simp [fields, ih false hq]
      · rw [if_neg hc, if_neg hc]
        simp [ih _ hq]
  rw [fields, hcut false h]
  rfl

/-- A text that has separators inside quotes only belongs to the first field. -/
theorem cut_append_of_shielded (hu : ∀ a b, u = a ++ sep :: b → inside quote q a = true)
    (v : List α) : cut sep quote q (u ++ v) =
      (u ++ (cut sep quote (inside quote q u) v).1, (cut sep quote (inside quote q u) v).2) := by
  induction u generalizing q with
  | nil => rfl
  | cons c u ih =>
    have hc : ¬(c = sep ∧ q = false) := by
      rintro ⟨rfl, rfl⟩
      exact absurd (hu [] u rfl) (by simp)
    have hrest := @ih (if c = quote then !q else q) fun a b hab => hu (c :: a) b (by simp [hab])
    rw [List.cons_append, cut_cons, if_neg hc, hrest]
    rfl

/-- A text that is begun inside quotes goes on to the next quote. -/
theorem cut_of_inside (h : quote ∉ u) (v : List α) : cut sep quote true (u ++ quote :: v) =
    (u ++ quote :: (cut sep quote false v).1, (cut sep quote false v).2) := by
  have hshielded : ∀ a b, u = a ++ sep :: b → inside quote true a = true := by
    rintro a b rfl
    exact inside_of_notMem (fun ha => h (List.mem_append_left _ ha)) true
  rw [cut_append_of_shielded hshielded, inside_of_notMem h, cut_cons, if_neg (by simp), if_pos rfl]
  rfl

/-- A whole text is one field. -/
theorem Whole.fields_eq (h : Whole sep quote u) : fields sep quote u = [u] := by
  have hcut := cut_append_of_shielded h.shielded []
  rw [List.append_nil] at hcut
  simp [fields, hcut]

/-- A text whose quotes are paired is whole if it is one field. -/
theorem whole_iff (hsep : sep ≠ quote) :
    Whole sep quote u ↔ inside quote false u = false ∧ fields sep quote u = [u] := by
  constructor
  · exact fun h => ⟨h.closed, h.fields_eq⟩
  · rintro ⟨hclosed, hone⟩
    refine ⟨hclosed, fun a b hab => ?_⟩
    by_contra ha
    rw [Bool.not_eq_true] at ha
    have hlength := congrArg List.length hone
    rw [hab, fields_append_cons hsep ha] at hlength
    simp [fields] at hlength

/-- A field that is all of the text before a separator is whole. -/
theorem whole_of_head (hsep : sep ≠ quote) (h : (cut sep quote false (u ++ sep :: v)).1 = u) :
    Whole sep quote u := by
  have hcut : ∀ q, (cut sep quote q (u ++ sep :: v)).1 = u →
      inside quote q u = false ∧ ∀ a b, u = a ++ sep :: b → inside quote q a = true := by
    clear h
    induction u with
    | nil =>
      intro q hq
      cases q with
      | false => simp
      | true => simp [cut_cons, hsep] at hq
    | cons c u ih =>
      intro q hq
      rw [List.cons_append, cut_cons] at hq
      by_cases hc : c = sep ∧ q = false
      · simp [hc] at hq
      · rw [if_neg hc] at hq
        obtain ⟨hclosed, hshielded⟩ := ih _ (List.cons.inj hq).2
        refine ⟨hclosed, fun a b hab => ?_⟩
        cases a with
        | nil =>
          -- The separator is the first element, which was not cut off.
          have hcsep : c = sep := (List.cons.inj hab).1
          simpa [hcsep] using hc
        | cons d a =>
          obtain ⟨rfl, hrest⟩ := List.cons.inj hab
          exact hshielded a b hrest
  obtain ⟨hclosed, hshielded⟩ := hcut false h
  exact ⟨hclosed, hshielded⟩

/-- The fields of a text that ends outside quotes have their quotes paired. -/
theorem inside_of_mem_fields (hsep : sep ≠ quote) (h : inside quote false u = false) :
    ∀ f ∈ fields sep quote u, inside quote false f = false := by
  have hcut : ∀ q, inside quote q u = false →
      inside quote q (cut sep quote q u).1 = false ∧
        ∀ f ∈ (cut sep quote q u).2, inside quote false f = false := by
    clear h
    induction u with
    | nil => exact fun q hq => ⟨hq, by simp⟩
    | cons c u ih =>
      intro q hq
      rw [inside_cons] at hq
      obtain ⟨hfirst, hrest⟩ := ih _ hq
      rw [cut_cons]
      by_cases hc : c = sep ∧ q = false
      · obtain ⟨rfl, rfl⟩ := hc
        rw [if_neg hsep] at hfirst hrest
        simp only [true_and, if_true, fields, List.forall_mem_cons]
        exact ⟨rfl, hfirst, hrest⟩
      · rw [if_neg hc]
        exact ⟨hfirst, hrest⟩
  obtain ⟨hfirst, hrest⟩ := hcut false h
  exact List.forall_mem_cons.mpr ⟨hfirst, hrest⟩

/-- The field that is cut off is a start of the text. -/
theorem prefix_cut (q : Bool) (u : List α) : (cut sep quote q u).1 <+: u := by
  induction u generalizing q with
  | nil => exact List.nil_prefix
  | cons c u ih =>
    rw [cut_cons]
    split
    · exact List.nil_prefix
    · exact List.cons_prefix_cons.mpr ⟨rfl, ih _⟩

/-- A field past the first begins behind a separator outside quotes. -/
theorem exists_of_mem_cut (hsep : sep ≠ quote) {f : List α} (hf : f ∈ (cut sep quote q u).2) :
    ∃ a b, u = a ++ sep :: b ∧ inside quote q a = false ∧ f <+: b := by
  induction u generalizing q with
  | nil => cases hf
  | cons c u ih =>
    rw [cut_cons] at hf
    split at hf
    · rename_i hc
      obtain ⟨rfl, rfl⟩ := hc
      rcases List.mem_cons.mp hf with rfl | hf
      · exact ⟨[], u, rfl, rfl, prefix_cut false u⟩
      · obtain ⟨a, b, rfl, ha, hb⟩ := ih hf
        refine ⟨c :: a, b, rfl, ?_, hb⟩
        rw [inside_cons, if_neg hsep]
        exact ha
    · obtain ⟨a, b, rfl, ha, hb⟩ := ih hf
      exact ⟨c :: a, b, rfl, ha, hb⟩

/-- A text has a field with a key if it begins with the key, or a separator outside quotes has the
key behind it. -/
theorem exists_key_iff (hsep : sep ≠ quote) {k : List α} (hk : Bare sep quote k) :
    (∃ f ∈ fields sep quote u, k <+: f) ↔
      k <+: u ∨ ∃ a b, u = a ++ sep :: b ∧ inside quote false a = false ∧ k <+: b := by
  have hhead : ∀ s, k <+: s → k <+: (cut sep quote false s).1 := by
    rintro _ ⟨s, rfl⟩
    rw [cut_append_of_shielded hk.whole.shielded]
    exact List.prefix_append _ _
  constructor
  · rintro ⟨f, hf, hkf⟩
    rcases List.mem_cons.mp hf with rfl | hf
    · exact Or.inl (hkf.trans (prefix_cut false u))
    · obtain ⟨a, b, hab, ha, hb⟩ := exists_of_mem_cut hsep hf
      exact Or.inr ⟨a, b, hab, ha, hkf.trans hb⟩
  · rintro (hu | ⟨a, b, rfl, ha, hb⟩)
    · exact ⟨_, List.mem_cons_self, hhead u hu⟩
    · rw [fields_append_cons hsep ha]
      exact ⟨_, List.mem_append_right _ List.mem_cons_self, hhead b hb⟩

/-- In front of a text stands what is cut off before it, and a last field that may go on. -/
theorem exists_fields_append (hsep : sep ≠ quote) (u : List α) : ∃ init last, ∀ v,
    fields sep quote (u ++ v) =
      init ++ (last ++ (cut sep quote (inside quote false u) v).1) ::
        (cut sep quote (inside quote false u) v).2 := by
  have hcut : ∀ q, ∃ init last, ∀ v,
      (cut sep quote q (u ++ v)).1 :: (cut sep quote q (u ++ v)).2 =
        init ++ (last ++ (cut sep quote (inside quote q u) v).1) ::
          (cut sep quote (inside quote q u) v).2 := by
    induction u with
    | nil => exact fun q => ⟨[], [], fun v => rfl⟩
    | cons c u ih =>
      intro q
      by_cases hc : c = sep ∧ q = false
      · obtain ⟨rfl, rfl⟩ := hc
        obtain ⟨init, last, heq⟩ := ih false
        refine ⟨[] :: init, last, fun v => ?_⟩
        rw [List.cons_append, cut_cons, if_pos ⟨rfl, rfl⟩, inside_cons, if_neg hsep,
          List.cons_append, ← heq]
        rfl
      · obtain ⟨init, last, heq⟩ := ih (if c = quote then !q else q)
        cases init with
        | nil =>
          refine ⟨[], c :: last, fun v => ?_⟩
          obtain ⟨hfirst, hrest⟩ := List.cons.inj (heq v)
          rw [List.cons_append, cut_cons, if_neg hc, inside_cons]
          simp [hfirst, hrest]
        | cons first init =>
          refine ⟨(c :: first) :: init, last, fun v => ?_⟩
          obtain ⟨hfirst, hrest⟩ := List.cons.inj (heq v)
          rw [List.cons_append, cut_cons, if_neg hc, inside_cons]
          simp [hfirst, hrest]
  exact hcut false

/-! ## Keys -/

/-- Whole fields behind a text that ends outside quotes are read back. -/
theorem fields_append_keyed (hsep : sep ≠ quote) (hu : inside quote false u = false)
    {kvs : List (List α × List α)} (h : ∀ kv ∈ kvs, Whole sep quote (kv.1 ++ kv.2)) :
    fields sep quote (u ++ keyed sep kvs) =
      fields sep quote u ++ kvs.map fun kv => kv.1 ++ kv.2 := by
  induction kvs generalizing u with
  | nil => simp [keyed]
  | cons kv kvs ih =>
    obtain ⟨hkv, hkvs⟩ := List.forall_mem_cons.mp h
    have hnext : inside quote false (u ++ sep :: (kv.1 ++ kv.2)) = false := by
      rw [inside_append, hu, inside_cons, if_neg hsep]
      exact hkv.closed
    have hsplit : u ++ keyed sep (kv :: kvs) = u ++ sep :: (kv.1 ++ kv.2) ++ keyed sep kvs := by
      simp [keyed]
    rw [hsplit, ih hnext hkvs, fields_append_cons hsep hu, hkv.fields_eq]
    simp

/-- Of values with keys that do not begin one another, one has a key. -/
theorem filter_keyed {kvs : List (List α × List α)}
    (h : kvs.Pairwise fun kv kv' => ¬kv.1 <+: kv'.1 ∧ ¬kv'.1 <+: kv.1) {k v : List α}
    (hkv : (k, v) ∈ kvs) :
    ((kvs.map fun kv => kv.1 ++ kv.2).filter fun f => k <+: f) = [k ++ v] := by
  have hother : ∀ {k' v' : List α}, ¬k <+: k' → ¬k' <+: k → ¬k <+: k' ++ v' := by
    intro k' v' h₁ h₂ hpre
    rcases List.prefix_or_prefix_of_prefix hpre (List.prefix_append k' v') with h | h
    · exact h₁ h
    · exact h₂ h
  induction kvs with
  | nil => cases hkv
  | cons kv kvs ih =>
    obtain ⟨hfirst, hrest⟩ := List.pairwise_cons.mp h
    rcases List.mem_cons.mp hkv with rfl | hmem
    · have hnone : ((kvs.map fun kv => kv.1 ++ kv.2).filter fun f => k <+: f) = [] := by
        simp only [List.filter_eq_nil_iff, List.forall_mem_map, decide_eq_true_eq]
        exact fun kv hkv => hother (hfirst kv hkv).1 (hfirst kv hkv).2
      rw [List.map_cons, List.filter_cons_of_pos (by simp), hnone]
    · have hne : ¬k <+: kv.1 ++ kv.2 := hother (hfirst (k, v) hmem).2 (hfirst (k, v) hmem).1
      rw [List.map_cons, List.filter_cons_of_neg (by simpa using hne), ih hrest hmem]

/-- Behind whole fields, a value is read back once exactly if no field before them has its key. -/
theorem filter_fields_iff (hsep : sep ≠ quote) (hu : inside quote false u = false)
    {kvs : List (List α × List α)} (h : ∀ kv ∈ kvs, Whole sep quote (kv.1 ++ kv.2))
    (hkeys : kvs.Pairwise fun kv kv' => ¬kv.1 <+: kv'.1 ∧ ¬kv'.1 <+: kv.1) {k v : List α}
    (hkv : (k, v) ∈ kvs) :
    ((fields sep quote (u ++ keyed sep kvs)).filter fun f => k <+: f) = [k ++ v] ↔
      ∀ f ∈ fields sep quote u, ¬k <+: f := by
  rw [fields_append_keyed hsep hu h, List.filter_append, filter_keyed hkeys hkv]
  constructor
  · intro heq f hf hkf
    have hnil := List.append_left_eq_self.mp heq
    simp only [List.filter_eq_nil_iff, decide_eq_true_eq] at hnil
    exact hnil f hf hkf
  · intro hnone
    have hnil : ((fields sep quote u).filter fun f => k <+: f) = [] := by
      simpa using hnone
    rw [hnil, List.nil_append]

/-- A value that is read back once, and has another behind it, is whole. -/
theorem whole_of_filter (hsep : sep ≠ quote) {pre post : List (List α × List α)}
    (hu : inside quote false (u ++ keyed sep pre) = false) {k v : List α} (hk : Bare sep quote k)
    {kv : List α × List α}
    (h : ((fields sep quote (u ++ keyed sep (pre ++ (k, v) :: kv :: post))).filter
      fun f => k <+: f) = [k ++ v]) : Whole sep quote (k ++ v) := by
  obtain ⟨w, hw⟩ : ∃ w, u ++ keyed sep (pre ++ (k, v) :: kv :: post) =
      u ++ keyed sep pre ++ sep :: (k ++ v ++ sep :: w) := by
    refine ⟨kv.1 ++ kv.2 ++ keyed sep post, ?_⟩
    simp [keyed]
  rw [hw] at h
  have hhead : k <+: (cut sep quote false (k ++ v ++ sep :: w)).1 := by
    rw [List.append_assoc, cut_append_of_shielded hk.whole.shielded]
    exact List.prefix_append _ _
  have hfield : (cut sep quote false (k ++ v ++ sep :: w)).1 ∈
      fields sep quote (u ++ keyed sep pre ++ sep :: (k ++ v ++ sep :: w)) := by
    rw [fields_append_cons hsep hu]
    exact List.mem_append_right _ List.mem_cons_self
  have hkept : (cut sep quote false (k ++ v ++ sep :: w)).1 ∈ [k ++ v] := by
    rw [← h]
    exact List.mem_filter.mpr ⟨hfield, decide_eq_true hhead⟩
  exact whole_of_head hsep (List.mem_singleton.mp hkept)

/-- Where two values of a key with a quote behind them are read back, what is before them ends
outside quotes. Otherwise either is in the middle of a field, and what is read back is the same. -/
theorem closed_of_filter (hsep : sep ≠ quote) {k v v' w y : List α} (hne : v ≠ v')
    (hbare : ∀ s ∈ [k, v, v'], Bare sep quote s) (hw : quote ∉ w)
    (h : ∀ s ∈ [v, v'], ((fields sep quote (u ++ sep :: (k ++ s ++ w ++ quote :: y))).filter
      fun f => k <+: f) = [k ++ s]) : inside quote false u = false := by
  by_contra hopen
  rw [Bool.not_eq_false] at hopen
  obtain ⟨init, last, hfields⟩ := @exists_fields_append _ _ sep quote hsep u
  obtain ⟨hk, hv, hv', -⟩ : Bare sep quote k ∧ Bare sep quote v ∧ Bare sep quote v' ∧ True := by
    simpa using hbare
  -- What has the key, with either value, is what has it apart from the field in the middle.
  have hsame : ∀ s, Bare sep quote s →
      ((fields sep quote (u ++ sep :: (k ++ s ++ w ++ quote :: y))).filter fun f => k <+: f) =
        [k ++ s] →
      ((init ++ (cut sep quote false y).2).filter fun f => k <+: f) = [k ++ s] := by
    intro s hs hfilter
    have hfree : quote ∉ sep :: (k ++ s ++ w) := by
      simp [hsep.symm, hk.quote, hs.quote, hw]
    have hsplit : sep :: (k ++ s ++ w ++ quote :: y) = sep :: (k ++ s ++ w) ++ quote :: y := rfl
    rw [hsplit, hfields, hopen, cut_of_inside hfree] at hfilter
    dsimp only at hfilter
    set m := last ++ (sep :: (k ++ s ++ w) ++ quote :: (cut sep quote false y).1) with hm
    have hmk : ¬k <+: m := by
      intro hkm
      have hmem : m ∈ [k ++ s] := by
        rw [← hfilter]
        exact List.mem_filter.mpr ⟨by simp, decide_eq_true hkm⟩
      have hms : sep ∈ k ++ s := List.mem_singleton.mp hmem ▸ (by simp [hm] : sep ∈ m)
      exact (List.mem_append.mp hms).elim hk.sep hs.sep
    rw [List.filter_append, List.filter_cons_of_neg (by simpa using hmk), ← List.filter_append]
      at hfilter
    exact hfilter
  have heq := (hsame v hv (h v (by simp))).symm.trans (hsame v' hv' (h v' (by simp)))
  exact hne (by simpa using heq)

end Lib.Fields
