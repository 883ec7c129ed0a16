import Stepwise.Json
import Mathlib.Data.List.Chain
/-!
Texts in quotes. What stands between the quotes is read back code point by code point; in the ASCII form what is beyond the
basic plane is written as two units, which are read back as two surrogates.
-/

namespace Stepwise

namespace Text

variable {n : Nat}

def hexadecimalDigit (n : Nat) : CodePoint := CodePoint.ofChar (Nat.digitChar n)

theorem hexadecimal_succ {width : Nat} (hwidth : 0 < width) (n : Nat) :
    hexadecimal (width + 1) n = hexadecimal width (n / 16) ++ [hexadecimalDigit (n % 16)] := by
  unfold hexadecimal
  dsimp only
  rw [Nat.toDigits_eq_if (by omega : 1 < 16) (n := n)]
  split
  next hlow =>
    obtain ⟨width, rfl⟩ := Nat.exists_eq_succ_of_ne_zero (Nat.ne_of_gt hwidth)
    rw [Nat.div_eq_of_lt hlow, Nat.mod_eq_of_lt hlow, Nat.toDigits_of_lt_base (by omega), List.length_singleton,
      List.length_singleton]
    simp only [Nat.succ_eq_add_one, Nat.add_sub_cancel, List.replicate_succ', ofChars, List.map_append, List.append_assoc]
    rfl
  next =>
    simp only [List.length_append, List.length_singleton, Nat.add_sub_add_right, ofChars, List.map_append, List.append_assoc]
    rfl

theorem hexadecimal_four (h : n < 0x10000) :
    hexadecimal 4 n = [hexadecimalDigit (n / 16 / 16 / 16), hexadecimalDigit (n / 16 / 16 % 16), hexadecimalDigit (n / 16 % 16),
      hexadecimalDigit (n % 16)] := by
  have hone : hexadecimal 1 (n / 16 / 16 / 16) = [hexadecimalDigit (n / 16 / 16 / 16)] := by
    unfold hexadecimal
    rw [Nat.toDigits_of_lt_base (by omega)]
    rfl
  rw [hexadecimal_succ (by omega), hexadecimal_succ (by omega), hexadecimal_succ (by omega), hone]
  rfl

/-- The value of a hexadecimal digit. -/
def hexadecimalValue (p : CodePoint) : Nat := if p.val < 58 then p.val - 48 else p.val - 87

theorem hexadecimalValue_digit (h : n < 16) : hexadecimalValue (hexadecimalDigit n) = n := by
  revert h
  revert n
  decide

end Text

namespace CodePoint

/-- The UTF-16 units of a code point, as code points. -/
def units (p : CodePoint) : Text :=
  if p.val < 0x10000 then [p]
  else [Fin.ofNat 0x110000 (0xD800 + (p.val - 0x10000) / 0x400), Fin.ofNat 0x110000 (0xDC00 + (p.val - 0x10000) % 0x400)]

def IsHighSurrogate (p : CodePoint) : Prop := 0xD800 ≤ p.val ∧ p.val < 0xDC00

def IsLowSurrogate (p : CodePoint) : Prop := 0xDC00 ≤ p.val ∧ p.val < 0xE000

variable {p q : CodePoint}

theorem units_of_lt (h : p.val < 0x10000) : p.units = [p] := if_pos h

/-- Beyond the basic plane the units are two surrogates, which have the code point between them. -/
theorem exists_units_of_le (h : 0x10000 ≤ p.val) : ∃ high low : CodePoint, p.units = [high, low] ∧ high.IsHighSurrogate ∧
    low.IsLowSurrogate ∧ p.val = 0x10000 + (high.val - 0xD800) * 0x400 + (low.val - 0xDC00) ∧
    high.val = 0xD800 + (p.val - 0x10000) / 0x400 ∧ low.val = 0xDC00 + (p.val - 0x10000) % 0x400 := by
  have hp := p.isLt
  have hhigh : (Fin.ofNat 0x110000 (0xD800 + (p.val - 0x10000) / 0x400)).val = 0xD800 + (p.val - 0x10000) / 0x400 :=
    Nat.mod_eq_of_lt (by omega)
  have hlow : (Fin.ofNat 0x110000 (0xDC00 + (p.val - 0x10000) % 0x400)).val = 0xDC00 + (p.val - 0x10000) % 0x400 :=
    Nat.mod_eq_of_lt (by omega)
  refine ⟨_, _, if_neg (by omega), ?_, ?_, ?_, hhigh, hlow⟩
  · rw [IsHighSurrogate, hhigh]
    omega
  · rw [IsLowSurrogate, hlow]
    omega
  · rw [hhigh, hlow]
    omega

theorem val_lt_of_mem_units (h : q ∈ p.units) : q.val < 0x10000 := by
  rcases Nat.lt_or_ge p.val 0x10000 with hlow | hhigh
  · rw [units_of_lt hlow] at h
    rwa [List.mem_singleton.mp h]
  · obtain ⟨high, low, hunits, hhigh, hlow, -⟩ := exists_units_of_le hhigh
    rw [hunits] at h
    rcases List.mem_pair.mp h with rfl | rfl
    · exact Nat.lt_trans hhigh.2 (by omega)
    · exact Nat.lt_trans hlow.2 (by omega)

end CodePoint

namespace Text

variable {p : CodePoint} {t t' : Text}

def units (t : Text) : Text := t.flatMap CodePoint.units

/-- No high surrogate stands in front of a low one. -/
def IsWhole (t : Text) : Prop := List.IsChain (fun p q ↦ ¬ (p.IsHighSurrogate ∧ q.IsLowSurrogate)) t

theorem val_lt_of_mem_units (h : p ∈ t.units) : p.val < 0x10000 := by
  obtain ⟨q, -, hp⟩ := List.mem_flatMap.mp h
  exact CodePoint.val_lt_of_mem_units hp

theorem units_cons (p : CodePoint) (t : Text) : units (p :: t) = p.units ++ t.units := List.flatMap_cons

theorem units_cons_ne_nil (p : CodePoint) (t : Text) : units (p :: t) ≠ [] := by
  rw [units_cons, CodePoint.units]
  split
  next => exact List.cons_ne_nil _ _
  next => exact List.cons_ne_nil _ _

theorem IsWhole.units_ne_cons {q : CodePoint} {u : Text} (h : IsWhole (p :: t)) (hp : p.IsHighSurrogate)
    (hq : q.IsLowSurrogate) : t.units ≠ q :: u := by
  intro hunits
  cases t with
  | nil => cases hunits
  | cons s t =>
    rw [units_cons] at hunits
    rcases Nat.lt_or_ge s.val 0x10000 with hlow | hhigh
    · rw [CodePoint.units_of_lt hlow] at hunits
      obtain ⟨rfl, -⟩ := List.cons.inj hunits
      exact (List.isChain_cons_cons.mp h).1 ⟨hp, hq⟩
    · obtain ⟨high, low, hs, hhigh, -⟩ := CodePoint.exists_units_of_le hhigh
      rw [hs] at hunits
      obtain ⟨rfl, -⟩ := List.cons.inj hunits
      have := hhigh.2
      have := hq.1
      omega

theorem isWhole_ofString (s : String) : IsWhole (ofString s) := by
  refine List.Pairwise.isChain (List.pairwise_of_forall_mem_list ?_)
  rintro p hp q - ⟨hhigh, -⟩
  obtain ⟨c, -, rfl⟩ := List.mem_map.mp hp
  have hvalid := c.valid
  have hval : (CodePoint.ofChar c).val = c.val.toNat := rfl
  simp only [UInt32.isValidChar, Nat.isValidChar] at hvalid
  have := hhigh.1
  have := hhigh.2
  omega

/-- The units of the first code point of a whole text are told from those behind it. -/
theorem units_append_inj {q : CodePoint} (h : IsWhole (p :: t)) (h' : IsWhole (q :: t'))
    (hunits : p.units ++ t.units = q.units ++ t'.units) : p = q ∧ t.units = t'.units := by
  rcases Nat.lt_or_ge p.val 0x10000 with hp | hp
  · rw [CodePoint.units_of_lt hp] at hunits
    rcases Nat.lt_or_ge q.val 0x10000 with hq | hq
    · rw [CodePoint.units_of_lt hq] at hunits
      exact List.cons.inj hunits
    · obtain ⟨high, low, hunit, hhigh, hlow, -⟩ := CodePoint.exists_units_of_le hq
      rw [hunit] at hunits
      obtain ⟨rfl, htail⟩ := List.cons.inj hunits
      exact absurd htail (h.units_ne_cons hhigh hlow)
  · obtain ⟨high, low, hunit, hhigh, hlow, hvalue, -⟩ := CodePoint.exists_units_of_le hp
    rw [hunit] at hunits
    rcases Nat.lt_or_ge q.val 0x10000 with hq | hq
    · rw [CodePoint.units_of_lt hq] at hunits
      obtain ⟨rfl, htail⟩ := List.cons.inj hunits
      exact absurd htail.symm (h'.units_ne_cons hhigh hlow)
    · obtain ⟨high', low', hunit', -, -, hvalue', -⟩ := CodePoint.exists_units_of_le hq
      rw [hunit'] at hunits
      obtain ⟨rfl, hlows⟩ := List.cons.inj hunits
      obtain ⟨rfl, htail⟩ := List.cons.inj hlows
      exact ⟨Fin.ext (hvalue.trans hvalue'.symm), htail⟩

theorem units_injective (h : t.IsWhole) (h' : t'.IsWhole) (hunits : t.units = t'.units) : t = t' := by
  induction t generalizing t' with
  | nil =>
    cases t' with
    | nil => rfl
    | cons q t' => exact absurd hunits.symm (units_cons_ne_nil q t')
  | cons p t ih =>
    cases t' with
    | nil => exact absurd hunits (units_cons_ne_nil p t)
    | cons q t' =>
      rw [units_cons, units_cons] at hunits
      obtain ⟨rfl, htail⟩ := units_append_inj h h' hunits
      rw [ih (List.IsChain.of_cons h) (List.IsChain.of_cons h') htail]

end Text

theorem follows_flatMap_append {α : Type} {f : α → Text} {l : List α} {r : Text} {opens : CodePoint → Prop}
    {follows : Text → Prop} (hl : ∀ a ∈ l, ∃ p t, f a = p :: t ∧ opens p) (hfollows : ∀ p t, opens p → follows (p :: t)) (hr : follows r) :
    follows (l.flatMap f ++ r) := by
  cases l with
  | nil => exact hr
  | cons a l =>
    obtain ⟨p, t, hp, hopens⟩ := hl a List.mem_cons_self
    rw [List.flatMap_cons, hp, List.cons_append, List.cons_append]
    exact hfollows p _ hopens

/-- Pieces that can be told apart one by one, and from what follows the last of them, can be told apart all together. -/
theorem flatMap_append_inj {α : Type} {f : α → Text} {l l' : List α} {r r' : Text}
    (opens : CodePoint → Prop) (follows : Text → Prop)
    (hopens : ∀ a ∈ l ++ l', ∃ p t, f a = p :: t ∧ opens p) (hfollows : ∀ p t, opens p → follows (p :: t))
    (hinj : ∀ a ∈ l, ∀ b ∈ l', ∀ u u', follows u → follows u' → f a ++ u = f b ++ u' → a = b ∧ u = u')
    (hr : ∀ p t, r = p :: t → ¬ opens p) (hr' : ∀ p t, r' = p :: t → ¬ opens p) (hfollow : follows r) (hfollow' : follows r')
    (h : l.flatMap f ++ r = l'.flatMap f ++ r') : l = l' ∧ r = r' := by
  induction l generalizing l' with
  | nil =>
    cases l' with
    | nil => exact ⟨rfl, h⟩
    | cons b l' =>
      obtain ⟨p, t, hp, hopens⟩ := hopens b List.mem_cons_self
      rw [List.flatMap_cons, hp, List.cons_append, List.cons_append] at h
      exact absurd hopens (hr p _ h)
  | cons a l ih =>
    have hleft : ∀ b ∈ l, ∃ p t, f b = p :: t ∧ opens p := fun b hb ↦
      hopens b (List.mem_append_left _ (List.mem_cons_of_mem _ hb))
    cases l' with
    | nil =>
      obtain ⟨p, t, hp, hopens⟩ := hopens a List.mem_cons_self
      rw [List.flatMap_cons, hp, List.cons_append, List.cons_append] at h
      exact absurd hopens (hr' p _ h.symm)
    | cons b l' =>
      have hright : ∀ c ∈ l', ∃ p t, f c = p :: t ∧ opens p := fun c hc ↦
        hopens c (List.mem_append_right _ (List.mem_cons_of_mem _ hc))
      rw [List.flatMap_cons, List.flatMap_cons, List.append_assoc, List.append_assoc] at h
      obtain ⟨rfl, hrest⟩ := hinj a List.mem_cons_self b List.mem_cons_self _ _ (follows_flatMap_append hleft hfollows hfollow)
        (follows_flatMap_append hright hfollows hfollow') h
      obtain ⟨rfl, hend⟩ := ih (List.forall_mem_append.mpr ⟨hleft, hright⟩)
        (fun a ha b hb ↦ hinj a (List.mem_cons_of_mem _ ha) b (List.mem_cons_of_mem _ hb)) hrest
      exact ⟨rfl, hend⟩

namespace Json

variable {p q : CodePoint} {t t' r r' : Text} {ascii : Bool}

/-- What a letter stands for behind a backslash; other marks stand for themselves. -/
def unescapedLetter (p : CodePoint) : CodePoint :=
  if p = CodePoint.ofChar 'n' then CodePoint.ofChar '\n'
  else if p = CodePoint.ofChar 'r' then CodePoint.ofChar '\r'
  else if p = CodePoint.ofChar 't' then CodePoint.ofChar '\t'
  else if p = CodePoint.ofChar 'b' then Fin.ofNat 0x110000 8
  else if p = CodePoint.ofChar 'f' then Fin.ofNat 0x110000 12
  else p

def unescapedUnit (a b c d : CodePoint) : CodePoint :=
  Fin.ofNat 0x110000 (((Text.hexadecimalValue a * 16 + Text.hexadecimalValue b) * 16 + Text.hexadecimalValue c) * 16 +
    Text.hexadecimalValue d)

/-- The first code point between quotes, and what follows it. -/
def unescape? : Text → Option (CodePoint × Text)
  | [] => none
  | p :: t =>
    if p = CodePoint.ofChar '\\' then
      match t with
      | [] => none
      | q :: t =>
        if q = CodePoint.ofChar 'u' then
          match t with
          | a :: b :: c :: d :: t => some (unescapedUnit a b c d, t)
          | _ => none
        else some (unescapedLetter q, t)
    else some (p, t)

theorem unescape?_unitEscape (h : p.val < 0x10000) : unescape? (unitEscape p.val ++ r) = some (p, r) := by
  have hunit : unescape? (unitEscape p.val ++ r) =
      some (unescapedUnit (Text.hexadecimalDigit (p.val / 16 / 16 / 16)) (Text.hexadecimalDigit (p.val / 16 / 16 % 16))
        (Text.hexadecimalDigit (p.val / 16 % 16)) (Text.hexadecimalDigit (p.val % 16)), r) := by
    rw [unitEscape, Text.hexadecimal_four h]
    rfl
  rw [hunit, unescapedUnit, Text.hexadecimalValue_digit (by omega), Text.hexadecimalValue_digit (by omega),
    Text.hexadecimalValue_digit (by omega), Text.hexadecimalValue_digit (by omega)]
  have hvalue : ((p.val / 16 / 16 / 16 * 16 + p.val / 16 / 16 % 16) * 16 + p.val / 16 % 16) * 16 + p.val % 16 = p.val := by
    omega
  rw [hvalue, Fin.ofNat_val_eq_self]

theorem escaped_cases (h : ascii = true → p.val < 0x10000) :
    (escaped ascii p = [p] ∧ p ≠ CodePoint.ofChar '\\' ∧ p ≠ CodePoint.ofChar '"') ∨
      (∃ q, escaped ascii p = [CodePoint.ofChar '\\', q] ∧ q ≠ CodePoint.ofChar 'u' ∧ unescapedLetter q = p) ∨
      (escaped ascii p = unitEscape p.val ∧ p.val < 0x10000) := by
  have hletter (c : Char) (q : CodePoint) (hc : CodePoint.ofChar c ≠ CodePoint.ofChar 'u')
      (hq : unescapedLetter (CodePoint.ofChar c) = q) : ∃ q', [CodePoint.ofChar '\\', CodePoint.ofChar c] =
        [CodePoint.ofChar '\\', q'] ∧ q' ≠ CodePoint.ofChar 'u' ∧ unescapedLetter q' = q := ⟨_, rfl, hc, hq⟩
  rw [escaped]
  by_cases hquote : p = CodePoint.ofChar '"'
  · rw [if_pos hquote]
    exact .inr (.inl (hletter '"' p (by decide) hquote.symm))
  rw [if_neg hquote]
  by_cases hbackslash : p = CodePoint.ofChar '\\'
  · rw [if_pos hbackslash]
    exact .inr (.inl (hletter '\\' p (by decide) hbackslash.symm))
  rw [if_neg hbackslash]
  by_cases hbreak : p = CodePoint.ofChar '\n'
  · rw [if_pos hbreak]
    exact .inr (.inl (hletter 'n' p (by decide) hbreak.symm))
  rw [if_neg hbreak]
  by_cases hreturn : p = CodePoint.ofChar '\r'
  · rw [if_pos hreturn]
    exact .inr (.inl (hletter 'r' p (by decide) hreturn.symm))
  rw [if_neg hreturn]
  by_cases htab : p = CodePoint.ofChar '\t'
  · rw [if_pos htab]
    exact .inr (.inl (hletter 't' p (by decide) htab.symm))
  rw [if_neg htab]
  by_cases hbackspace : p.val = 8
  · rw [if_pos hbackspace]
    exact .inr (.inl (hletter 'b' p (by decide) (Fin.ext hbackspace.symm)))
  rw [if_neg hbackspace]
  by_cases hfeed : p.val = 12
  · rw [if_pos hfeed]
    exact .inr (.inl (hletter 'f' p (by decide) (Fin.ext hfeed.symm)))
  rw [if_neg hfeed]
  by_cases hcontrol : p.val < 0x20
  · rw [if_pos hcontrol]
    exact .inr (.inr ⟨rfl, by omega⟩)
  rw [if_neg hcontrol]
  by_cases hplain : (!ascii || decide (p.val < 0x7F)) = true
  · rw [if_pos hplain]
    exact .inl ⟨rfl, hbackslash, hquote⟩
  rw [if_neg hplain]
  have hbasic : p.val < 0x10000 := by
    rw [Bool.or_eq_true, not_or, Bool.not_eq_true', Bool.not_eq_false] at hplain
    exact h hplain.1
  rw [if_pos hbasic]
  exact .inr (.inr ⟨rfl, hbasic⟩)

theorem unescape?_escaped (h : ascii = true → p.val < 0x10000) : unescape? (escaped ascii p ++ r) = some (p, r) := by
  obtain ⟨htext, hbackslash, -⟩ | ⟨q, htext, hq, hletter⟩ | ⟨htext, hbasic⟩ := escaped_cases h
  · rw [htext, List.singleton_append, unescape?.eq_def]
    exact if_neg hbackslash
  · rw [htext, List.cons_append, List.singleton_append, unescape?.eq_def, ← hletter]
    exact (if_pos rfl).trans (if_neg hq)
  · rw [htext, unescape?_unitEscape hbasic]

theorem escaped_append_inj (hp : ascii = true → p.val < 0x10000) (hq : ascii = true → q.val < 0x10000)
    (h : escaped ascii p ++ r = escaped ascii q ++ r') : p = q ∧ r = r' := by
  have hread := unescape?_escaped (r := r) hp
  rw [h, unescape?_escaped hq] at hread
  exact ⟨(Prod.mk.inj (Option.some.inj hread)).1.symm, (Prod.mk.inj (Option.some.inj hread)).2.symm⟩

/-- Between quotes no quote begins an escape. -/
theorem exists_escaped_cons (h : ascii = true → p.val < 0x10000) :
    ∃ q t, escaped ascii p = q :: t ∧ q ≠ CodePoint.ofChar '"' := by
  obtain ⟨htext, -, hquote⟩ | ⟨q, htext, -, -⟩ | ⟨htext, -⟩ := escaped_cases h
  · exact ⟨p, [], htext, hquote⟩
  · exact ⟨CodePoint.ofChar '\\', [q], htext, by decide⟩
  · exact ⟨CodePoint.ofChar '\\', _, htext, by decide⟩

theorem stringText_append_inj_of_lt (ht : ∀ p ∈ t, ascii = true → p.val < 0x10000)
    (ht' : ∀ p ∈ t', ascii = true → p.val < 0x10000) (h : stringText ascii t ++ r = stringText ascii t' ++ r') :
    t = t' ∧ r = r' := by
  have hquote {r u : Text} {p : CodePoint} (hr : Text.ofString "\"" ++ r = p :: u) : ¬ p ≠ CodePoint.ofChar '"' :=
    fun hp ↦ hp (List.cons.inj hr).1.symm
  unfold stringText at h
  simp only [List.append_assoc] at h
  obtain ⟨rfl, hend⟩ := flatMap_append_inj (· ≠ CodePoint.ofChar '"') (fun _ ↦ True)
    (fun p hp ↦ exists_escaped_cons ((List.mem_append.mp hp).elim (ht p) (ht' p))) (fun _ _ _ ↦ trivial)
    (fun p hp q hq _ _ _ _ h ↦ escaped_append_inj (ht p hp) (ht' q hq) h) (fun _ _ ↦ hquote) (fun _ _ ↦ hquote) trivial trivial
    (List.append_cancel_left h)
  exact ⟨rfl, List.append_cancel_left hend⟩

theorem escaped_true_of_le (h : 0x80 ≤ p.val) : escaped true p = if p.val < 0x10000 then unitEscape p.val
    else unitEscape (0xD800 + (p.val - 0x10000) / 0x400) ++ unitEscape (0xDC00 + (p.val - 0x10000) % 0x400) := by
  have hne (c : Char) (hc : c.toNat < 0x80) : p ≠ CodePoint.ofChar c := by
    rintro rfl
    exact absurd hc (Nat.not_lt.mpr h)
  rw [escaped, if_neg (hne '"' (by decide)), if_neg (hne '\\' (by decide)), if_neg (hne '\n' (by decide)),
    if_neg (hne '\r' (by decide)), if_neg (hne '\t' (by decide)), if_neg (by omega), if_neg (by omega), if_neg (by omega),
    if_neg]
  rw [Bool.not_true, Bool.false_or, decide_eq_true_eq]
  omega

theorem escaped_units (p : CodePoint) : p.units.flatMap (escaped true) = escaped true p := by
  rcases Nat.lt_or_ge p.val 0x10000 with hp | hp
  · rw [CodePoint.units_of_lt hp, List.flatMap_singleton]
  · obtain ⟨high, low, hunits, ⟨hhigh, hhigh'⟩, ⟨hlow, hlow'⟩, -, hhighval, hlowval⟩ := CodePoint.exists_units_of_le hp
    rw [hunits, List.flatMap_cons, List.flatMap_singleton, escaped_true_of_le (by omega), escaped_true_of_le (by omega),
      escaped_true_of_le (by omega), if_pos (by omega), if_pos (by omega), if_neg (by omega), hhighval, hlowval]

/-- In ASCII the units of a text are written, whether they come one by one or in pairs. -/
theorem stringText_units (t : Text) : stringText true t.units = stringText true t := by
  rw [stringText, stringText, Text.units, List.flatMap_assoc]
  simp only [escaped_units]

/-- What stands between quotes is told by what is written, and ends with the second quote. -/
theorem stringText_append_inj (ht : ascii = true → t.IsWhole) (ht' : ascii = true → t'.IsWhole)
    (h : stringText ascii t ++ r = stringText ascii t' ++ r') : t = t' ∧ r = r' := by
  cases ascii with
  | false =>
    have hfalse (p : CodePoint) (h : false = true) : p.val < 0x10000 := absurd h Bool.false_ne_true
    exact stringText_append_inj_of_lt (fun p _ ↦ hfalse p) (fun p _ ↦ hfalse p) h
  | true =>
    rw [← stringText_units t, ← stringText_units t'] at h
    obtain ⟨hunits, hend⟩ := stringText_append_inj_of_lt (fun _ hp _ ↦ Text.val_lt_of_mem_units hp)
      (fun _ hp _ ↦ Text.val_lt_of_mem_units hp) h
    exact ⟨Text.units_injective (ht rfl) (ht' rfl) hunits, hend⟩

end Json

end Stepwise
