import Unalias.Proofs.Scan

/-! # How a match depends on the bytes around it

A match reads a lead-in, a quote, a run without quotes, a quote and a closer, so the bytes it
depends on end at the first quote after its lead-in and the one byte of closer after that. Take
content with a quote, a specifier `v` and a quote, and put another specifier `w` in the place of
`v`. When both specifiers are inert (no quote in them, no closing parenthesis at their start, no
lead-in at their end), a match that opens before the first quote closes before it or takes the
specifier as its value (`SpecifierForm.matchHead_splice`); no match opens inside the specifier,
so the search walks over it (`SpecifierForm.findAll_append_unquoted`).

Every occurrence the search finds stands between quotes (`SpecifierForm.findAll_quoted`).
-/

namespace Unalias

theorem leadIns_unquoted : ∀ f ∈ SpecifierForm.all, ∀ kw ∈ f.keywords,
    ∀ b ∈ kw ++ f.opener, IsQuote b = false := by decide +kernel

theorem closer_empty_or_paren :
    ∀ f ∈ SpecifierForm.all, f.closer = [] ∨ f.closer = [41] := by decide +kernel

/-- The lead-ins that open a specifier: a keyword of a form followed by the form's opener. -/
def leadIns : List Bytes := SpecifierForm.all.flatMap fun f => f.keywords.map (· ++ f.opener)

example : leadIns = ["import(", "require(", "import ", "from "].map Bytes.ofString := by
  decide +kernel

theorem mem_leadIns {f : SpecifierForm} (hf : f ∈ SpecifierForm.all) {kw : Bytes}
    (hkw : kw ∈ f.keywords) : kw ++ f.opener ∈ leadIns :=
  List.mem_flatMap.mpr ⟨f, hf, List.mem_map.mpr ⟨kw, hkw, rfl⟩⟩

/-- A specifier that cannot take part in a match around it: it holds no quote, does not start
    with the closing parenthesis of a call, and does not end with a lead-in. -/
structure Inert (v : Bytes) : Prop where
  unquoted : ∀ b ∈ v, IsQuote b = false
  head_ne : v.head? ≠ some 41
  no_leadIn : ∀ lead ∈ leadIns, ¬ lead <:+ v

instance : DecidablePred Inert := fun v =>
  decidable_of_iff ((∀ b ∈ v, IsQuote b = false) ∧ v.head? ≠ some 41 ∧ ∀ lead ∈ leadIns, ¬ lead <:+ v)
    ⟨fun ⟨h1, h2, h3⟩ => ⟨h1, h2, h3⟩, fun ⟨h1, h2, h3⟩ => ⟨h1, h2, h3⟩⟩

example : Inert (Bytes.ofString "./lib/util") ∧ ¬ Inert (Bytes.ofString "a/from ") := by
  decide +kernel

section Quotes

theorem exists_first_quote : ∀ {x : Bytes}, (∃ b ∈ x, IsQuote b = true) →
    ∃ a q b, x = a ++ q :: b ∧ (∀ c ∈ a, IsQuote c = false) ∧ IsQuote q = true
  | [], ⟨_, hb, _⟩ => absurd hb (List.not_mem_nil)
  | c :: x, ⟨b, hb, hq⟩ => by
      by_cases hc : IsQuote c = true
      · exact ⟨[], c, x, rfl, by simp, hc⟩
      · have hb' : b ∈ x := by
          rcases List.mem_cons.mp hb with rfl | hb'
          · exact absurd hq hc
          · exact hb'
        obtain ⟨a, q, rest, rfl, ha, hq'⟩ := exists_first_quote ⟨b, hb', hq⟩
        refine ⟨c :: a, q, rest, rfl, ?_, hq'⟩
        intro d hd
        rcases List.mem_cons.mp hd with rfl | hd
        · simpa using hc
        · exact ha d hd

theorem mem_of_append_concat {lead body x' : Bytes} {b qx : UInt8}
    (h : lead ++ b :: body = x' ++ [qx]) (hbody : body ≠ []) : qx ∈ body := by
  obtain ⟨body', c, rfl⟩ := (List.eq_nil_or_concat body).resolve_left hbody
  rw [List.concat_eq_append] at h
  have h' : (lead ++ b :: body') ++ [c] = x' ++ [qx] := by simpa using h
  have hc : [c] = [qx] := (List.append_inj' h' rfl).2
  simp_all

/-- Bytes that end in a quote, read after a lead-in that stops short of that quote: the byte after
    the lead-in is not a quote, or a quoted run follows it inside the bytes. -/
theorem shape_after_lead {lead x' : Bytes} {qx : UInt8} (hqx : IsQuote qx = true)
    (hp : lead <+: x' ++ [qx]) (hlen : lead.length < x'.length) :
    (∃ b t, x' ++ [qx] = lead ++ b :: t ∧ IsQuote b = false) ∨
      ∃ q value q' t, x' ++ [qx] = lead ++ q :: value ++ q' :: t ∧ IsQuote q = true ∧
        (∀ b ∈ value, IsQuote b = false) ∧ IsQuote q' = true := by
  obtain ⟨rest, hrest⟩ := hp
  match rest, hrest with
  | [], h =>
      have := congrArg List.length h
      simp at this; omega
  | b :: body, h =>
      by_cases hb : IsQuote b = true
      · have hbody : body ≠ [] := by
          rintro rfl
          have := congrArg List.length h
          simp at this; omega
        obtain ⟨value, q', t, rfl, hvalue, hq'⟩ :=
          exists_first_quote ⟨qx, mem_of_append_concat h hbody, hqx⟩
        exact .inr ⟨b, value, q', t, by simp [← h], hb, hvalue, hq'⟩
      · exact .inl ⟨b, body, h.symm, by simpa using hb⟩

end Quotes

theorem matchQuoted_lead {lead closer value t : Bytes} {q q' : UInt8} (hq : IsQuote q = true)
    (hvalue : ∀ b ∈ value, IsQuote b = false) (hq' : IsQuote q' = true) :
    matchQuoted lead closer (lead ++ q :: value ++ q' :: t) =
      if closer.isPrefixOf t then
        some (lead.length + 1, value, lead.length + value.length + 2 + closer.length)
      else none := by
  have htake : (value ++ q' :: t).takeWhile (fun b => !IsQuote b) = value := by
    rw [List.takeWhile_append_of_pos (by simpa using hvalue)]
    simp [hq']
  simp [matchQuoted, hq, hq', htake]

theorem matchQuoted_unquoted {lead closer t : Bytes} {b : UInt8} (hb : IsQuote b = false) :
    matchQuoted lead closer (lead ++ b :: t) = none := by
  simp [matchQuoted, hb]

theorem matchQuoted_without_lead {lead closer s : Bytes} (h : ¬ lead <+: s) :
    matchQuoted lead closer s = none := by
  simp [matchQuoted, h]

/-- A lead-in longer than the bytes before a quote cannot be read there: it would hold the quote. -/
theorem not_prefix_of_quote {lead u t : Bytes} {q : UInt8} (hlead : ∀ b ∈ lead, IsQuote b = false)
    (hq : IsQuote q = true) (hlen : u.length < lead.length) : ¬ lead <+: u ++ q :: t := by
  intro hp
  have hu : u ++ [q] <+: lead :=
    List.prefix_of_prefix_length_le ⟨t, by simp⟩ hp (by simp; omega)
  have := hlead q (hu.subset (by simp))
  simp_all

theorem paren_isPrefixOf {z : Bytes} (hz : z.head? ≠ some 41) : [41].isPrefixOf z = false := by
  cases z with
  | nil => rfl
  | cons c z =>
      simp only [List.head?_cons, ne_eq, Option.some.injEq] at hz
      simp [List.isPrefixOf, Ne.symm hz]

/-- Against a closer that is empty or a closing parenthesis, what follows bytes that do not start
    with a parenthesis decides nothing. -/
theorem closer_isPrefixOf_append {closer t z z' : Bytes} (hc : closer = [] ∨ closer = [41])
    (hz : z.head? ≠ some 41) (hz' : z'.head? ≠ some 41) :
    closer.isPrefixOf (t ++ z) = closer.isPrefixOf (t ++ z') := by
  rcases hc with rfl | rfl
  · simp
  · cases t with
    | nil => rw [List.nil_append, List.nil_append, paren_isPrefixOf hz, paren_isPrefixOf hz']
    | cons c t => simp [List.isPrefixOf]

theorem closer_length_le {closer t z : Bytes} (hc : closer = [] ∨ closer = [41])
    (hz : z.head? ≠ some 41) (h : closer.isPrefixOf (t ++ z)) : closer.length ≤ t.length := by
  rcases hc with rfl | rfl
  · simp
  · cases t with
    | nil => rw [List.nil_append, paren_isPrefixOf hz] at h; contradiction
    | cons c t => simp

theorem head_append_quote {v t : Bytes} {q : UInt8} (hv : v.head? ≠ some 41)
    (hq : IsQuote q = true) : (v ++ q :: t).head? ≠ some 41 := by
  cases v with
  | nil =>
      rintro h
      simp only [List.nil_append, List.head?_cons, Option.some.injEq] at h
      subst h
      simp [IsQuote] at hq
  | cons b v => simpa using hv

/-- Inside a stretch that ends in a quote, a match that opens before that quote closes by it:
    what follows the stretch changes nothing, and the match ends within it. -/
theorem matchQuoted_inside {lead closer x' z z' : Bytes} {qx : UInt8}
    (hc : closer = [] ∨ closer = [41]) (hqx : IsQuote qx = true) (hlen : lead.length < x'.length)
    (hz : z.head? ≠ some 41) (hz' : z'.head? ≠ some 41) :
    matchQuoted lead closer (x' ++ qx :: z') = matchQuoted lead closer (x' ++ qx :: z) ∧
      ∀ m ∈ matchQuoted lead closer (x' ++ qx :: z), m.1 = lead.length + 1 ∧ m.2.2 ≤ x'.length + 1 := by
  have e : ∀ y, x' ++ qx :: y = (x' ++ [qx]) ++ y := by simp
  by_cases hp : lead <+: x' ++ [qx]
  · rcases shape_after_lead hqx hp hlen with ⟨b, t, hx, hb⟩ | ⟨q, value, q', t, hx, hq, hvalue, hq'⟩
    · have e' : ∀ y, lead ++ b :: t ++ y = lead ++ b :: (t ++ y) := by simp
      rw [e z, e z', hx, e', e', matchQuoted_unquoted hb, matchQuoted_unquoted hb]
      simp
    · have e' : ∀ y, lead ++ q :: value ++ q' :: t ++ y = lead ++ q :: value ++ q' :: (t ++ y) := by
        simp
      have hlen' := congrArg List.length hx
      simp only [List.length_append, List.length_cons, List.length_nil] at hlen'
      rw [e z, e z', hx, e', e', matchQuoted_lead hq hvalue hq', matchQuoted_lead hq hvalue hq',
        closer_isPrefixOf_append hc hz' hz]
      refine ⟨rfl, ?_⟩
      intro m hm
      split at hm
      case isTrue hclose =>
        simp only [Option.mem_def, Option.some.injEq] at hm
        subst hm
        have := closer_length_le hc hz hclose
        refine ⟨rfl, ?_⟩
        show lead.length + value.length + 2 + closer.length ≤ x'.length + 1
        omega
      case isFalse => simp at hm
  · have hnp : ∀ y, ¬ lead <+: x' ++ qx :: y := fun y h =>
      hp (List.prefix_of_prefix_length_le h (by simp) (by simp; omega))
    rw [matchQuoted_without_lead (hnp _), matchQuoted_without_lead (hnp _)]
    simp

/-- A match that opens on the quote ending a stretch takes the quoted run after it as value. -/
theorem matchQuoted_edge {lead closer x' v t : Bytes} {qx q' : UInt8} (hqx : IsQuote qx = true)
    (hv : ∀ b ∈ v, IsQuote b = false) (hq' : IsQuote q' = true) (hlen : lead.length = x'.length) :
    matchQuoted lead closer (x' ++ qx :: (v ++ q' :: t)) =
      if lead = x' ∧ closer.isPrefixOf t then
        some (x'.length + 1, v, x'.length + v.length + 2 + closer.length)
      else none := by
  by_cases hx : lead = x'
  · subst hx
    have e : lead ++ qx :: (v ++ q' :: t) = lead ++ qx :: v ++ q' :: t := by simp
    rw [e, matchQuoted_lead hqx hv hq']
    simp
  · have hnp : ¬ lead <+: x' ++ qx :: (v ++ q' :: t) := by
      intro h
      apply hx
      rw [List.prefix_iff_eq_take, hlen] at h
      simpa using h
    rw [matchQuoted_without_lead hnp]
    simp [hx]

/-- A match read after the specifier at `n` was replaced: the match whose value starts there takes
    the new specifier, and every other match stays as it was. -/
def adjustMatch (n : Nat) (v w : Bytes) (m : Nat × Bytes × Nat) : Nat × Bytes × Nat :=
  if m.1 = n then (m.1, w, m.2.2 + w.length - v.length) else m

section Splice

variable {lead closer x' v w t t' : Bytes} {qx q' : UInt8}

theorem matchQuoted_splice (hlead : ∀ b ∈ lead, IsQuote b = false)
    (hc : closer = [] ∨ closer = [41]) (hqx : IsQuote qx = true) (hq' : IsQuote q' = true)
    (hv : ∀ b ∈ v, IsQuote b = false) (hw : ∀ b ∈ w, IsQuote b = false)
    (hv41 : v.head? ≠ some 41) (hw41 : w.head? ≠ some 41)
    (hclose : closer.isPrefixOf t = closer.isPrefixOf t') :
    matchQuoted lead closer (x' ++ qx :: (w ++ q' :: t')) =
      (matchQuoted lead closer (x' ++ qx :: (v ++ q' :: t))).map (adjustMatch (x'.length + 1) v w) := by
  rcases Nat.lt_trichotomy lead.length x'.length with hlt | heq | hgt
  · -- the match, if any, closes before the replaced specifier
    obtain ⟨hsame, hin⟩ := matchQuoted_inside hc hqx hlt (head_append_quote hv41 hq')
      (head_append_quote hw41 hq')
    rw [hsame]
    cases hm : matchQuoted lead closer (x' ++ qx :: (v ++ q' :: t)) with
    | none => rfl
    | some m =>
        have := (hin m hm).1
        simp [adjustMatch]
        omega
  · -- the match, if any, takes the replaced specifier as its value
    rw [matchQuoted_edge hqx hw hq' heq, matchQuoted_edge hqx hv hq' heq, hclose]
    split
    · simp [adjustMatch]; omega
    · rfl
  · have hnp : ∀ y, ¬ lead <+: x' ++ qx :: y := fun _ => not_prefix_of_quote hlead hqx hgt
    simp [matchQuoted_without_lead (hnp _)]

theorem matchQuoted_splice_cases (hc : closer = [] ∨ closer = [41]) (hlead : ∀ b ∈ lead, IsQuote b = false)
    (hqx : IsQuote qx = true) (hq' : IsQuote q' = true) (hv : ∀ b ∈ v, IsQuote b = false)
    (hv41 : v.head? ≠ some 41) {m : Nat × Bytes × Nat}
    (h : matchQuoted lead closer (x' ++ qx :: (v ++ q' :: t)) = some m) :
    (m.1 < x'.length + 1 ∧ m.2.2 ≤ x'.length + 1) ∨
      (m = (x'.length + 1, v, x'.length + v.length + 2 + closer.length) ∧ closer.isPrefixOf t) := by
  rcases Nat.lt_trichotomy lead.length x'.length with hlt | heq | hgt
  · obtain ⟨-, hin⟩ := matchQuoted_inside hc hqx hlt (head_append_quote (t := t) hv41 hq')
      (head_append_quote (t := t) hv41 hq')
    have := hin m h
    exact .inl ⟨by omega, this.2⟩
  · rw [matchQuoted_edge hqx hv hq' heq] at h
    split at h
    case isTrue hok =>
      simp only [Option.some.injEq] at h
      exact .inr ⟨h.symm, hok.2⟩
    case isFalse => simp at h
  · rw [matchQuoted_without_lead (not_prefix_of_quote hlead hqx hgt)] at h
    simp at h

end Splice

/-- No match opens inside a run without quotes that ends on a quote, unless a lead-in ends the
    run. -/
theorem matchQuoted_inert {lead closer u t : Bytes} {q : UInt8}
    (hlead : ∀ b ∈ lead, IsQuote b = false) (hu : ∀ b ∈ u, IsQuote b = false) (hne : lead ≠ u)
    (hq : IsQuote q = true) : matchQuoted lead closer (u ++ q :: t) = none := by
  by_cases hp : lead <+: u ++ q :: t
  · rcases Nat.lt_trichotomy lead.length u.length with hlt | heq | hgt
    · -- the byte after the lead-in lies in the run
      obtain ⟨rest, rfl⟩ : lead <+: u :=
        List.prefix_of_prefix_length_le hp (List.prefix_append _ _) (Nat.le_of_lt hlt)
      cases rest with
      | nil => simp at hlt
      | cons b rest =>
          have hb : IsQuote b = false := hu b (by simp)
          rw [List.append_assoc, List.cons_append, matchQuoted_unquoted hb]
    · rw [List.prefix_iff_eq_take, heq] at hp
      exact absurd (by simpa using hp) hne
    · exact absurd hp (not_prefix_of_quote hlead hq hgt)
  · exact matchQuoted_without_lead hp

/-- An occurrence moved `d` bytes further on. -/
def Occurrence.shift (d : Nat) (o : Occurrence) : Occurrence :=
  { o with start := o.start + d, stop := o.stop + d }

namespace SpecifierForm

theorem findAll_some {f : SpecifierForm} {s value : Bytes} {at_ len : Nat} (pos : Nat)
    (h : f.matchHead s = some (at_, value, len)) :
    f.findAll pos s =
      ⟨pos + at_, pos + at_ + value.length, value, f.kind⟩ :: f.findAll (pos + len) (s.drop len) := by
  obtain ⟨-, hlt, hle⟩ := matchHead_bounds h
  match s, h with
  | [], _ => simp at hle; omega
  | b :: rest, h =>
      rw [findAll, h]
      obtain ⟨k, rfl⟩ : ∃ k, len = k + 1 := ⟨len - 1, by omega⟩
      rfl

theorem findAll_none {f : SpecifierForm} {s : Bytes} (pos : Nat) (h : f.matchHead s = none) :
    f.findAll pos s = f.findAll (pos + 1) (s.drop 1) := by
  match s, h with
  | [], _ => simp [findAll]
  | b :: rest, h =>
      rw [findAll, h]
      rfl

/-- The search does not depend on where the bytes start. -/
theorem findAll_shift (f : SpecifierForm) (d : Nat) (pos : Nat) (s : Bytes) :
    f.findAll (pos + d) s = (f.findAll pos s).map (Occurrence.shift d) := by
  fun_induction f.findAll pos s with
  | case1 pos => simp [findAll]
  | case2 pos b rest at_ value len hm ih =>
      rw [findAll, hm]
      simp only [List.map_cons]
      rw [show pos + d + len = pos + len + d by omega, ih]
      congr 1
      simp only [Occurrence.shift, Occurrence.mk.injEq]
      exact ⟨by omega, by omega, trivial, trivial⟩
  | case3 pos b rest hm ih =>
      rw [findAll, hm]
      simp only
      rw [← ih]
      congr 1
      omega

section Splice

variable {f : SpecifierForm} {x' v w t t' : Bytes} {qx q' : UInt8}

theorem matchHead_splice (hf : f ∈ SpecifierForm.all) (hqx : IsQuote qx = true)
    (hq' : IsQuote q' = true) (hv : ∀ b ∈ v, IsQuote b = false) (hw : ∀ b ∈ w, IsQuote b = false)
    (hv41 : v.head? ≠ some 41) (hw41 : w.head? ≠ some 41)
    (hclose : f.closer.isPrefixOf t = f.closer.isPrefixOf t') :
    f.matchHead (x' ++ qx :: (w ++ q' :: t')) =
      (f.matchHead (x' ++ qx :: (v ++ q' :: t))).map (adjustMatch (x'.length + 1) v w) := by
  unfold matchHead
  rw [List.map_findSome?]
  -- each keyword's match moves the same way
  have hkws : ∀ kws : List Bytes, (∀ kw ∈ kws, ∀ b ∈ kw ++ f.opener, IsQuote b = false) →
      kws.findSome? (fun kw => matchQuoted (kw ++ f.opener) f.closer (x' ++ qx :: (w ++ q' :: t'))) =
        kws.findSome? (Option.map (adjustMatch (x'.length + 1) v w) ∘
          fun kw => matchQuoted (kw ++ f.opener) f.closer (x' ++ qx :: (v ++ q' :: t))) := by
    intro kws hkws
    induction kws with
    | nil => rfl
    | cons kw kws ih =>
        have hlead := hkws kw (by simp)
        simp only [List.findSome?_cons, Function.comp_apply]
        rw [matchQuoted_splice hlead (closer_empty_or_paren f hf) hqx hq' hv hw hv41 hw41 hclose]
        cases matchQuoted (kw ++ f.opener) f.closer (x' ++ qx :: (v ++ q' :: t)) with
        | none => exact ih fun kw' hkw' => hkws kw' (by simp [hkw'])
        | some m => rfl
  exact hkws f.keywords (leadIns_unquoted f hf)

theorem matchHead_splice_cases (hf : f ∈ SpecifierForm.all) (hqx : IsQuote qx = true)
    (hq' : IsQuote q' = true) (hv : ∀ b ∈ v, IsQuote b = false) (hv41 : v.head? ≠ some 41)
    {m : Nat × Bytes × Nat} (h : f.matchHead (x' ++ qx :: (v ++ q' :: t)) = some m) :
    (m.1 < x'.length + 1 ∧ m.2.2 ≤ x'.length + 1) ∨
      (m = (x'.length + 1, v, x'.length + v.length + 2 + f.closer.length) ∧
        f.closer.isPrefixOf t) := by
  obtain ⟨kw, hkw, hm⟩ := matchHead_eq_some h
  exact matchQuoted_splice_cases (closer_empty_or_paren f hf) (leadIns_unquoted f hf kw hkw) hqx hq' hv hv41 hm

end Splice

/-- The search walks over a specifier that holds no quote and ends with no lead-in, up to the
    quote after it, without a match. -/
theorem findAll_append_unquoted {f : SpecifierForm} (hf : f ∈ SpecifierForm.all)
    {q : UInt8} {t : Bytes} (hq : IsQuote q = true) :
    ∀ v : Bytes, (∀ b ∈ v, IsQuote b = false) → (∀ lead ∈ leadIns, ¬ lead <:+ v) →
      ∀ k, f.findAll k (v ++ q :: t) = f.findAll (k + v.length) (q :: t) := by
  intro v
  induction v with
  | nil => simp
  | cons b v ih =>
      intro hv hsuf k
      have hnone : f.matchHead (b :: v ++ q :: t) = none := by
        unfold matchHead
        rw [List.findSome?_eq_none_iff]
        intro kw hkw
        refine matchQuoted_inert (leadIns_unquoted f hf kw hkw) hv ?_ hq
        rintro h
        exact hsuf _ (mem_leadIns hf hkw) (h ▸ List.suffix_refl _)
      rw [findAll_none k hnone]
      simp only [List.cons_append, List.drop_succ_cons, List.drop_zero, List.length_cons]
      rw [ih (fun c hc => hv c (by simp [hc]))
        (fun lead hl hs => hsuf lead hl (hs.trans (List.suffix_cons b v)))]
      congr 1
      omega

/-- Every occurrence the search finds is a match at the head of the bytes from some offset on. -/
theorem mem_findAll {f : SpecifierForm} {pos : Nat} {s : Bytes} {o : Occurrence}
    (h : o ∈ f.findAll pos s) :
    ∃ j at_ value len, f.matchHead (s.drop j) = some (at_, value, len) ∧
      o = ⟨pos + j + at_, pos + j + at_ + value.length, value, f.kind⟩ := by
  fun_induction f.findAll pos s with
  | case1 pos => simp at h
  | case2 pos b rest at_ value len hm ih =>
      rcases List.mem_cons.mp h with rfl | h
      · exact ⟨0, at_, value, len, hm, by simp⟩
      · obtain ⟨j, at', value', len', hm', rfl⟩ := ih h
        have hlen : 0 < len := by have := (matchHead_bounds hm).2.1; omega
        refine ⟨len + j, at', value', len', ?_, by simp; omega⟩
        obtain ⟨k, rfl⟩ : ∃ k, len = k + 1 := ⟨len - 1, by omega⟩
        simpa [Nat.add_right_comm k 1 j, List.drop_drop] using hm'
  | case3 pos b rest hm ih =>
      obtain ⟨j, at', value', len', hm', rfl⟩ := ih h
      exact ⟨j + 1, at', value', len', by simpa using hm', by simp; omega⟩

/-- A match at the head of the bytes opens on a quote, closes on one, and holds none between. -/
theorem matchHead_quoted {f : SpecifierForm} {s value : Bytes} {at_ len : Nat}
    (h : f.matchHead s = some (at_, value, len)) :
    0 < at_ ∧ (∃ q, s[at_ - 1]? = some q ∧ IsQuote q = true) ∧
      (∃ q, s[at_ + value.length]? = some q ∧ IsQuote q = true) ∧
      ∀ b ∈ value, IsQuote b = false := by
  obtain ⟨kw, -, h⟩ := f.matchHead_eq_some h
  obtain ⟨q, q', tail, rfl, hq, hq', hvalue, rfl, rfl⟩ := matchQuoted_eq_some_iff.mp h
  refine ⟨by omega, ⟨q, ?_, hq⟩, ⟨q', ?_, hq'⟩, hvalue⟩
  · simp
  · rw [show (kw ++ f.opener).length + 1 + value.length = (kw ++ f.opener ++ q :: value).length by
      simp; omega]
    simp

/-- Each occurrence found from offset `pos` on starts past `pos`. -/
theorem findAll_start_gt {f : SpecifierForm} {pos : Nat} {s : Bytes} {o : Occurrence}
    (h : o ∈ f.findAll pos s) : pos < o.start := by
  obtain ⟨j, at_, value, len, hm, rfl⟩ := f.mem_findAll h
  have := (matchHead_quoted hm).1
  show pos < pos + j + at_
  omega

/-- Every occurrence the search finds stops after its value. -/
theorem findAll_stop_eq {f : SpecifierForm} {pos : Nat} {s : Bytes} {o : Occurrence}
    (h : o ∈ f.findAll pos s) : o.stop = o.start + o.value.length := by
  obtain ⟨j, at_, value, len, -, rfl⟩ := f.mem_findAll h
  rfl

end SpecifierForm

/-- An occurrence between quotes: its value holds none, a quote stands just before its start and
    one at its stop. -/
structure Occurrence.Quoted (content : Bytes) (o : Occurrence) : Prop where
  start_pos : 0 < o.start
  opens : ∃ q, content[o.start - 1]? = some q ∧ IsQuote q = true
  closes : ∃ q, content[o.stop]? = some q ∧ IsQuote q = true
  unquoted : ∀ b ∈ o.value, IsQuote b = false

theorem SpecifierForm.findAll_quoted (f : SpecifierForm) (content : Bytes) :
    ∀ o ∈ f.findAll 0 content, o.Quoted content := by
  intro o ho
  obtain ⟨j, at_, value, len, hm, rfl⟩ := f.mem_findAll ho
  obtain ⟨hat, ⟨q, hq, hquote⟩, ⟨q', hq', hquote'⟩, hvalue⟩ := matchHead_quoted hm
  simp only [List.getElem?_drop] at hq hq'
  refine ⟨show 0 < 0 + j + at_ by omega, ⟨q, ?_, hquote⟩, ⟨q', ?_, hquote'⟩, hvalue⟩
  · rw [show 0 + j + at_ - 1 = j + (at_ - 1) by omega]
    exact hq
  · rw [show 0 + j + at_ + value.length = j + (at_ + value.length) by omega]
    exact hq'

end Unalias
