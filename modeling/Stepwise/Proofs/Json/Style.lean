import Stepwise.Proofs.Json.Word
import Stepwise.Proofs.Json.Quoting
/-!
The written forms of a document. They differ in what stands around items and in whether characters beyond ASCII are escaped; in
each of them a document is told by what is written, and so is what follows it.
-/

namespace Stepwise

namespace Json

/-- Documents by their depth: what holds of the items and the members of a document holds of the document. -/
@[elab_as_elim]
theorem induction {motive : Json → Prop} (null : motive null) (boolean : ∀ b, motive (boolean b))
    (number : ∀ n, motive (number n)) (string : ∀ t, motive (string t))
    (array : ∀ items, (∀ item ∈ items, motive item) → motive (array items))
    (object : ∀ members, (∀ m ∈ members, motive m.2) → motive (object members)) (j : Json) : motive j :=
  @Json.rec motive (fun items ↦ ∀ item ∈ items, motive item) (fun members ↦ ∀ m ∈ members, motive m.2) (fun m ↦ motive m.2) null
    boolean number string array object (List.forall_mem_nil _) (fun _ _ hitem hitems ↦ List.forall_mem_cons.mpr ⟨hitem, hitems⟩)
    (List.forall_mem_nil _) (fun _ _ hm hms ↦ List.forall_mem_cons.mpr ⟨hm, hms⟩) (fun _ _ h ↦ h) j

/-- A text that occurs in a document, as a string or as a key. -/
inductive Mentions : Json → Text → Prop
  | string (t : Text) : Mentions (.string t) t
  | item {items : List Json} {item : Json} {t : Text} (hitem : item ∈ items) (h : item.Mentions t) : Mentions (.array items) t
  | key {members : List (Text × Json)} {m : Text × Json} (hm : m ∈ members) : Mentions (.object members) m.1
  | member {members : List (Text × Json)} {m : Text × Json} {t : Text} (hm : m ∈ members) (h : m.2.Mentions t) :
    Mentions (.object members) t

/-- All texts of a document are whole ones. -/
def IsWhole (j : Json) : Prop := ∀ t, j.Mentions t → t.IsWhole

/-- A text that no word goes on with. -/
def Stops (t : Text) : Prop := ∀ p u, t = p :: u → ¬ p.IsWordPoint

def IsBlank (p : CodePoint) : Prop := p = CodePoint.ofChar ' ' ∨ p = CodePoint.ofChar '\n'

/-- Items with commas between them; if there are any, something stands in front of the first, behind each comma, and at the
end. -/
def block (first between outer : Text) (texts : List Text) : Text :=
  if texts.isEmpty then [] else first ++ Text.join (CodePoint.ofChar ',' :: between) texts ++ outer

theorem join_cons (separator t : Text) (ts : List Text) : Text.join separator (t :: ts) = t ++ ts.flatMap (separator ++ ·) := by
  induction ts generalizing t with
  | nil => rw [Text.join, List.flatMap_nil, List.append_nil]
  | cons u ts ih =>
    rw [Text.join, ih, List.flatMap_cons, List.append_assoc, List.append_assoc]
    exact List.cons_ne_nil _ _

theorem block_cons (first between outer t : Text) (ts : List Text) :
    block first between outer (t :: ts) = first ++ (t ++ (ts.flatMap (CodePoint.ofChar ',' :: between ++ ·) ++ outer)) := by
  rw [block, List.isEmpty_cons, if_neg Bool.false_ne_true, join_cons, List.append_assoc, List.append_assoc]

/-- A written form: a way to write documents, with blanks around items that go with the depth. -/
structure Form where
  ascii : Bool
  write : Nat → Json → Text
  first : Nat → Text
  between : Nat → Text
  outer : Nat → Text
  colon : Text
  isBlank_first : ∀ depth, ∀ p ∈ first depth, IsBlank p
  isBlank_outer : ∀ depth, ∀ p ∈ outer depth, IsBlank p
  word : ∀ depth j t, j.word? = some t → write depth j = t
  string : ∀ depth t, write depth (.string t) = stringText ascii t
  array : ∀ depth items, write depth (.array items) = Text.ofString "[" ++
    (block (first depth) (between depth) (outer depth) (items.map (write (depth + 1))) ++ Text.ofString "]")
  object : ∀ depth members, write depth (.object members) = Text.ofString "\x7b" ++
    (block (first depth) (between depth) (outer depth)
      (members.map fun m ↦ stringText ascii m.1 ++ (colon ++ write (depth + 1) m.2)) ++ Text.ofString "\x7d")

theorem compactItems_eq (ascii : Bool) (items : List Json) : compactItems ascii items = items.map (compact ascii) := by
  induction items with
  | nil => rfl
  | cons item items ih => rw [compactItems, ih, List.map_cons]

def compactMember (ascii : Bool) (m : Text × Json) : Text := stringText ascii m.1 ++ (Text.ofString ":" ++ m.2.compact ascii)

theorem compactMembers_eq (ascii : Bool) (members : List (Text × Json)) :
    compactMembers ascii members = members.map (compactMember ascii) := by
  induction members with
  | nil => rfl
  | cons m members ih => rw [compactMembers, ih, List.map_cons, compactMember, List.append_assoc]

theorem indentedItems_eq (depth : Nat) (items : List Json) : indentedItems depth items = items.map (indented depth) := by
  induction items with
  | nil => rfl
  | cons item items ih => rw [indentedItems, ih, List.map_cons]

theorem indentedMembers_eq (depth : Nat) (members : List (Text × Json)) :
    indentedMembers depth members = members.map fun m ↦ stringText true m.1 ++ (Text.ofString ": " ++ m.2.indented depth) := by
  induction members with
  | nil => rfl
  | cons m members ih => rw [indentedMembers, ih, List.map_cons, List.append_assoc]

theorem block_nil (texts : List Text) : block [] [] [] texts = Text.join "," texts := by
  cases texts with
  | nil => rfl
  | cons t ts => exact List.append_nil _

def Form.compact (ascii : Bool) : Form where
  ascii := ascii
  write _ j := j.compact ascii
  first _ := []
  between _ := []
  outer _ := []
  colon := ":"
  isBlank_first _ := List.forall_mem_nil _
  isBlank_outer _ := List.forall_mem_nil _
  word _ j t h := by
    obtain rfl | ⟨b, rfl⟩ | ⟨n, rfl⟩ := word?_cases h
    · exact Option.some.inj h
    · exact Option.some.inj h
    · exact Option.some.inj h
  string _ _ := rfl
  array _ items := by rw [Json.compact, compactItems_eq, block_nil, List.append_assoc]
  object _ members := by
    rw [Json.compact, compactMembers_eq, List.append_assoc, ← block_nil]
    rfl

theorem isBlank_of_mem_lineBreak {depth : Nat} {p : CodePoint} (h : p ∈ lineBreak depth) : IsBlank p := by
  rcases List.mem_cons.mp h with rfl | h
  · exact .inr rfl
  · exact .inl (List.eq_of_mem_replicate h)

theorem bracketed_eq (opening closing : String) (depth : Nat) (texts : List Text) : bracketed opening closing depth texts =
    Text.ofString opening ++
      (block (lineBreak (depth + 1)) (lineBreak (depth + 1)) (lineBreak depth) texts ++ Text.ofString closing) := by
  cases texts with
  | nil => rfl
  | cons t ts =>
    rw [bracketed, block, List.isEmpty_cons, if_neg Bool.false_ne_true, if_neg Bool.false_ne_true]
    simp only [List.append_assoc]

def Form.indented : Form where
  ascii := true
  write := Json.indented
  first depth := lineBreak (depth + 1)
  between depth := lineBreak (depth + 1)
  outer := lineBreak
  colon := ": "
  isBlank_first _ _ := isBlank_of_mem_lineBreak
  isBlank_outer _ _ := isBlank_of_mem_lineBreak
  word _ j t h := by
    obtain rfl | ⟨b, rfl⟩ | ⟨n, rfl⟩ := word?_cases h
    · exact Option.some.inj h
    · exact Option.some.inj h
    · exact Option.some.inj h
  string _ _ := rfl
  array _ items := by rw [Json.indented, indentedItems_eq, bracketed_eq]
  object _ members := by rw [Json.indented, indentedMembers_eq, bracketed_eq]

variable {p : CodePoint} {t t' r r' : Text} {j j' : Json}

/-- A word ends where something follows that it does not go on with. -/
theorem word_append_inj (ht : ∀ p ∈ t, p.IsWordPoint) (ht' : ∀ p ∈ t', p.IsWordPoint) (hr : Stops r) (hr' : Stops r')
    (h : t ++ r = t' ++ r') : t = t' ∧ r = r' := by
  induction t generalizing t' with
  | nil =>
    cases t' with
    | nil => exact ⟨rfl, h⟩
    | cons p t' => exact absurd (ht' p List.mem_cons_self) (hr p _ h)
  | cons p t ih =>
    cases t' with
    | nil => exact absurd (ht p List.mem_cons_self) (hr' p _ h.symm)
    | cons q t' =>
      obtain ⟨rfl, htail⟩ := List.cons.inj h
      obtain ⟨rfl, hend⟩ := ih (List.forall_mem_cons.mp ht).2 (List.forall_mem_cons.mp ht').2 htail
      exact ⟨rfl, hend⟩

/-- What a document starts with. -/
def Opens : Json → CodePoint → Prop
  | .string _, p => p = CodePoint.ofChar '"'
  | .array _, p => p = CodePoint.ofChar '['
  | .object _, p => p = CodePoint.ofChar '\x7b'
  | .null, p | .boolean _, p | .number _, p => p.IsWordPoint

theorem isWordPoint_iff {c : Char} : (CodePoint.ofChar c).IsWordPoint ↔
    c.toNat = 43 ∨ c.toNat = 45 ∨ c.toNat = 46 ∨ (48 ≤ c.toNat ∧ c.toNat ≤ 57) ∨ (97 ≤ c.toNat ∧ c.toNat ≤ 122) := .rfl

theorem not_isWordPoint_of_isBlank (h : IsBlank p) : ¬ p.IsWordPoint := by
  rcases h with rfl | rfl
  · rw [isWordPoint_iff]
    decide
  · rw [isWordPoint_iff]
    decide

/-- A mark that is in front of an item, or behind all of them. -/
def IsClosing (p : CodePoint) : Prop := p = CodePoint.ofChar ']' ∨ p = CodePoint.ofChar '\x7d'

theorem IsClosing.apart (h : IsClosing p) : p ≠ CodePoint.ofChar ',' ∧ ¬ IsBlank p ∧ ¬ p.IsWordPoint := by
  rcases h with rfl | rfl
  · rw [isWordPoint_iff, IsBlank]
    decide
  · rw [isWordPoint_iff, IsBlank]
    decide

theorem Opens.not_isClosing (h : j.Opens p) : ¬ IsClosing p := by
  intro hclosing
  cases j with
  | string t => rcases hclosing with rfl | rfl <;> revert h <;> rw [Opens] <;> decide
  | array items => rcases hclosing with rfl | rfl <;> revert h <;> rw [Opens] <;> decide
  | object members => rcases hclosing with rfl | rfl <;> revert h <;> rw [Opens] <;> decide
  | _ => exact hclosing.apart.2.2 h

theorem isWordPoint_of_opens (hword : j.word? = some t) (h : j.Opens p) : p.IsWordPoint := by
  obtain rfl | ⟨b, rfl⟩ | ⟨n, rfl⟩ := word?_cases hword
  · exact h
  · exact h
  · exact h

theorem exists_word?_of_opens (hp : p.IsWordPoint) (h : j.Opens p) : ∃ t, j.word? = some t := by
  have hmark (c : Char) (hc : ¬ (CodePoint.ofChar c).IsWordPoint) : p ≠ CodePoint.ofChar c := by
    rintro rfl
    exact hc hp
  cases j with
  | string t => exact absurd h (hmark '"' (by rw [isWordPoint_iff]; decide))
  | array items => exact absurd h (hmark '[' (by rw [isWordPoint_iff]; decide))
  | object members => exact absurd h (hmark '\x7b' (by rw [isWordPoint_iff]; decide))
  | _ => exact ⟨_, rfl⟩

theorem exists_string_of_opens (h : j.Opens (CodePoint.ofChar '"')) : ∃ t, j = string t := by
  cases j with
  | string t => exact ⟨t, rfl⟩
  | array items => exact absurd h (by rw [Opens]; decide)
  | object members => exact absurd h (by rw [Opens]; decide)
  | _ => exact absurd h (by rw [Opens, isWordPoint_iff]; decide)

theorem exists_array_of_opens (h : j.Opens (CodePoint.ofChar '[')) : ∃ items, j = array items := by
  cases j with
  | array items => exact ⟨items, rfl⟩
  | string t => exact absurd h (by rw [Opens]; decide)
  | object members => exact absurd h (by rw [Opens]; decide)
  | _ => exact absurd h (by rw [Opens, isWordPoint_iff]; decide)

theorem exists_object_of_opens (h : j.Opens (CodePoint.ofChar '\x7b')) : ∃ members, j = object members := by
  cases j with
  | object members => exact ⟨members, rfl⟩
  | string t => exact absurd h (by rw [Opens]; decide)
  | array items => exact absurd h (by rw [Opens]; decide)
  | _ => exact absurd h (by rw [Opens, isWordPoint_iff]; decide)

theorem IsWhole.item {items : List Json} {item : Json} (h : (array items).IsWhole) (hitem : item ∈ items) : item.IsWhole :=
  fun _ ht ↦ h _ (.item hitem ht)

theorem IsWhole.key {members : List (Text × Json)} {m : Text × Json} (h : (object members).IsWhole) (hm : m ∈ members) :
    m.1.IsWhole := h _ (.key hm)

theorem IsWhole.member {members : List (Text × Json)} {m : Text × Json} (h : (object members).IsWhole) (hm : m ∈ members) :
    m.2.IsWhole := fun _ ht ↦ h _ (.member hm ht)

theorem isWhole_object_iff {members : List (Text × Json)} :
    (object members).IsWhole ↔ ∀ m ∈ members, m.1.IsWhole ∧ m.2.IsWhole := by
  constructor
  · exact fun h m hm ↦ ⟨h.key hm, h.member hm⟩
  · rintro h t ht
    cases ht with
    | key hm => exact (h _ hm).1
    | member hm ht => exact (h _ hm).2 _ ht

theorem isWhole_array_iff {items : List Json} : (array items).IsWhole ↔ ∀ item ∈ items, item.IsWhole := by
  constructor
  · exact fun h item hitem ↦ h.item hitem
  · rintro h t ht
    cases ht with
    | item hitem ht => exact h _ hitem _ ht

theorem isWhole_string_iff : (string t).IsWhole ↔ t.IsWhole := by
  constructor
  · exact fun h ↦ h t (.string t)
  · rintro h _ ⟨⟩
    exact h

theorem isWhole_of_word? (h : j.word? = some t) : j.IsWhole := by
  obtain rfl | ⟨b, rfl⟩ | ⟨n, rfl⟩ := word?_cases h
  · rintro _ ⟨⟩
  · rintro _ ⟨⟩
  · rintro _ ⟨⟩

theorem comma_row {α : Type} (between : Text) (f : α → Text) (a : α) (l : List α) (r : Text) :
    CodePoint.ofChar ',' :: (between ++ (f a ++ ((l.map f).flatMap (CodePoint.ofChar ',' :: between ++ ·) ++ r))) =
      (a :: l).flatMap (fun a ↦ CodePoint.ofChar ',' :: (between ++ f a)) ++ r := by
  rw [List.flatMap_map, List.flatMap_cons]
  simp only [List.append_assoc, List.cons_append]

theorem isBlank_or_eq_of_outer {outer u : Text} {q : CodePoint} (houter : ∀ p ∈ outer, IsBlank p)
    (h : outer ++ p :: r = q :: u) : IsBlank q ∨ q = p := by
  cases outer with
  | nil => exact .inr (List.cons.inj h).1.symm
  | cons o outer => exact .inl ((List.cons.inj h).1 ▸ houter o List.mem_cons_self)

theorem IsClosing.stops {outer : Text} (hp : IsClosing p) (houter : ∀ p ∈ outer, IsBlank p) : Stops (outer ++ p :: r) := by
  intro q u hq
  rcases isBlank_or_eq_of_outer houter hq with hblank | rfl
  · exact not_isWordPoint_of_isBlank hblank
  · exact hp.apart.2.2

theorem IsClosing.ne_comma {outer : Text} (hp : IsClosing p) (houter : ∀ p ∈ outer, IsBlank p) :
    ∀ q u, outer ++ p :: r = q :: u → ¬ q = CodePoint.ofChar ',' := by
  rintro q u hq rfl
  rcases isBlank_or_eq_of_outer houter hq with hblank | rfl
  · exact absurd hblank (by rw [IsBlank]; decide)
  · exact hp.apart.1 rfl

theorem IsClosing.ne_first {first item u : Text} (hp : IsClosing p) (hblank : ∀ p ∈ first, IsBlank p)
    (hitem : ∃ p t, item = p :: t ∧ ¬ IsClosing p) : p :: r ≠ first ++ (item ++ u) := by
  intro heq
  cases first with
  | nil =>
    obtain ⟨q, t, rfl, hclosing⟩ := hitem
    exact hclosing ((List.cons.inj heq).1 ▸ hp)
  | cons q first => exact hp.apart.2.1 ((List.cons.inj heq).1 ▸ hblank q List.mem_cons_self)

theorem stops_comma {q : CodePoint} {u : Text} (hq : q = CodePoint.ofChar ',') : Stops (q :: u) := by
  rintro _ _ ⟨⟩
  rw [hq, isWordPoint_iff]
  decide

/-- Items are told by what is written between brackets, and so is what follows the second bracket. -/
theorem block_append_inj {α : Type} {f : α → Text} {l l' : List α} {first between outer : Text}
    (hblank : ∀ p ∈ first, IsBlank p) (houter : ∀ p ∈ outer, IsBlank p)
    (hopens : ∀ a ∈ l ++ l', ∃ p t, f a = p :: t ∧ ¬ IsClosing p)
    (hinj : ∀ a ∈ l, ∀ b ∈ l', ∀ u u', Stops u → Stops u' → f a ++ u = f b ++ u' → a = b ∧ u = u') (hp : IsClosing p)
    (h : block first between outer (l.map f) ++ p :: r = block first between outer (l'.map f) ++ p :: r') :
    l = l' ∧ r = r' := by
  cases l with
  | nil =>
    cases l' with
    | nil => exact ⟨rfl, (List.cons.inj h).2⟩
    | cons b l' =>
      rw [List.map_cons, block_cons, List.append_assoc, List.append_assoc] at h
      exact absurd h (hp.ne_first hblank (hopens b List.mem_cons_self))
  | cons a l =>
    cases l' with
    | nil =>
      rw [List.map_cons, block_cons, List.append_assoc, List.append_assoc] at h
      exact absurd h.symm (hp.ne_first hblank (hopens a List.mem_cons_self))
    | cons b l' =>
      rw [List.map_cons, List.map_cons, block_cons, block_cons] at h
      simp only [List.append_assoc] at h
      -- with a comma before the first item as well, all of them are alike
      have hcommas := congrArg (fun u ↦ CodePoint.ofChar ',' :: (between ++ u)) (List.append_cancel_left h)
      rw [comma_row, comma_row] at hcommas
      have hstep : ∀ c ∈ a :: l, ∀ d ∈ b :: l', ∀ u u', Stops u → Stops u' →
          CodePoint.ofChar ',' :: (between ++ f c) ++ u = CodePoint.ofChar ',' :: (between ++ f d) ++ u' → c = d ∧ u = u' := by
        intro c hc d hd u u' hu hu' heq
        rw [List.cons_append, List.cons_append, List.append_assoc, List.append_assoc] at heq
        exact hinj c hc d hd u u' hu hu' (List.append_cancel_left (List.cons.inj heq).2)
      obtain ⟨hitems, hend⟩ := flatMap_append_inj (· = CodePoint.ofChar ',') Stops (fun a _ ↦ ⟨_, _, rfl, rfl⟩)
        (fun _ _ ↦ stops_comma) hstep (hp.ne_comma houter) (hp.ne_comma houter) (hp.stops houter) (hp.stops houter) hcommas
      exact ⟨hitems, (List.cons.inj (List.append_cancel_left hend)).2⟩

namespace Form

variable (F : Form) {depth : Nat}

theorem exists_write_eq_cons (depth : Nat) (j : Json) : ∃ p t, F.write depth j = p :: t ∧ j.Opens p := by
  have hword {j : Json} {t : Text} (h : j.word? = some t) : ∃ p u, F.write depth j = p :: u ∧ p.IsWordPoint := by
    obtain ⟨p, u, rfl⟩ := List.exists_cons_of_ne_nil (word?_ne_nil h)
    exact ⟨p, u, F.word depth j _ h, isWordPoint_of_mem_word? h List.mem_cons_self⟩
  cases j with
  | null => exact hword rfl
  | boolean b => exact hword rfl
  | number n => exact hword rfl
  | string t => exact ⟨_, _, F.string depth t, rfl⟩
  | array items => exact ⟨_, _, F.array depth items, rfl⟩
  | object members => exact ⟨_, _, F.object depth members, rfl⟩

theorem exists_opens (h : F.write depth j ++ r = F.write depth j' ++ r') : ∃ p, j.Opens p ∧ j'.Opens p := by
  obtain ⟨p, t, hp, hopens⟩ := F.exists_write_eq_cons depth j
  obtain ⟨p', t', hp', hopens'⟩ := F.exists_write_eq_cons depth j'
  rw [hp, hp'] at h
  obtain ⟨rfl, -⟩ := List.cons.inj h
  exact ⟨p, hopens, hopens'⟩

theorem write_word_append_inj (hword : j.word? = some t) (hr : Stops r) (hr' : Stops r')
    (h : F.write depth j ++ r = F.write depth j' ++ r') : j = j' ∧ r = r' := by
  obtain ⟨p, hopens, hopens'⟩ := F.exists_opens h
  obtain ⟨t', hword'⟩ := exists_word?_of_opens (isWordPoint_of_opens hword hopens) hopens'
  rw [F.word depth j t hword, F.word depth j' t' hword'] at h
  obtain ⟨rfl, hend⟩ := word_append_inj (fun _ ↦ isWordPoint_of_mem_word? hword) (fun _ ↦ isWordPoint_of_mem_word? hword')
    hr hr' h
  exact ⟨word?_injective hword hword', hend⟩

/-- A member with its key, in front of something that it does not go on with. -/
theorem member_append_inj {m m' : Text × Json} (hkey : F.ascii = true → m.1.IsWhole) (hkey' : F.ascii = true → m'.1.IsWhole)
    (hvalue : ∀ r r', F.write depth m.2 ++ r = F.write depth m'.2 ++ r' → Stops r → Stops r' → m.2 = m'.2 ∧ r = r')
    (hr : Stops r) (hr' : Stops r') (h : stringText F.ascii m.1 ++ (F.colon ++ F.write depth m.2) ++ r =
      stringText F.ascii m'.1 ++ (F.colon ++ F.write depth m'.2) ++ r') : m = m' ∧ r = r' := by
  simp only [List.append_assoc] at h
  obtain ⟨hkeys, hrest⟩ := stringText_append_inj hkey hkey' h
  obtain ⟨hvalues, hend⟩ := hvalue r r' (List.append_cancel_left hrest) hr hr'
  exact ⟨Prod.ext hkeys hvalues, hend⟩

/-- Documents are told by what is written, if they have whole texts only or are not written in ASCII. -/
theorem write_append_inj (hj : F.ascii = true → j.IsWhole) (hj' : F.ascii = true → j'.IsWhole) (hr : Stops r)
    (hr' : Stops r') (h : F.write depth j ++ r = F.write depth j' ++ r') : j = j' ∧ r = r' := by
  induction j using Json.induction generalizing j' depth r r' with
  | null => exact F.write_word_append_inj rfl hr hr' h
  | boolean b => exact F.write_word_append_inj rfl hr hr' h
  | number n => exact F.write_word_append_inj rfl hr hr' h
  | string t =>
    obtain ⟨p, rfl, hopens⟩ := F.exists_opens h
    obtain ⟨t', rfl⟩ := exists_string_of_opens hopens
    rw [F.string, F.string] at h
    obtain ⟨rfl, hend⟩ := stringText_append_inj (fun hascii ↦ isWhole_string_iff.mp (hj hascii))
      (fun hascii ↦ isWhole_string_iff.mp (hj' hascii)) h
    exact ⟨rfl, hend⟩
  | array items ih =>
    obtain ⟨p, rfl, hopens⟩ := F.exists_opens h
    obtain ⟨items', rfl⟩ := exists_array_of_opens hopens
    rw [F.array, F.array, List.append_assoc, List.append_assoc, List.append_assoc, List.append_assoc] at h
    have hopens (item : Json) : ∃ p t, F.write (depth + 1) item = p :: t ∧ ¬ IsClosing p := by
      obtain ⟨p, t, hp, hopens⟩ := F.exists_write_eq_cons (depth + 1) item
      exact ⟨p, t, hp, hopens.not_isClosing⟩
    obtain ⟨rfl, hend⟩ := block_append_inj (F.isBlank_first depth) (F.isBlank_outer depth) (fun item _ ↦ hopens item)
      (fun item hitem item' hitem' u u' hu hu' ↦ ih item hitem (fun hascii ↦ (hj hascii).item hitem)
        (fun hascii ↦ (hj' hascii).item hitem') hu hu') (.inl rfl) (List.append_cancel_left h)
    exact ⟨rfl, hend⟩
  | object members ih =>
    obtain ⟨p, rfl, hopens⟩ := F.exists_opens h
    obtain ⟨members', rfl⟩ := exists_object_of_opens hopens
    rw [F.object, F.object, List.append_assoc, List.append_assoc, List.append_assoc, List.append_assoc] at h
    have hopens (m : Text × Json) : ∃ p t,
        stringText F.ascii m.1 ++ (F.colon ++ F.write (depth + 1) m.2) = p :: t ∧ ¬ IsClosing p := by
      refine ⟨CodePoint.ofChar '"', _, rfl, ?_⟩
      rw [IsClosing]
      decide
    obtain ⟨rfl, hend⟩ := block_append_inj (F.isBlank_first depth) (F.isBlank_outer depth) (fun m _ ↦ hopens m)
      (fun m hm m' hm' u u' ↦ F.member_append_inj (fun hascii ↦ (hj hascii).key hm) (fun hascii ↦ (hj' hascii).key hm')
        fun r r' h hr hr' ↦ ih m hm (fun hascii ↦ (hj hascii).member hm) (fun hascii ↦ (hj' hascii).member hm') hr hr' h)
      (.inr rfl) (List.append_cancel_left h)
    exact ⟨rfl, hend⟩

theorem write_injective (hj : F.ascii = true → j.IsWhole) (hj' : F.ascii = true → j'.IsWhole)
    (h : F.write depth j = F.write depth j') : j = j' := by
  have hstops : Stops [] := fun _ _ hnil ↦ absurd hnil.symm (List.cons_ne_nil _ _)
  rw [← List.append_nil (F.write depth j), ← List.append_nil (F.write depth j')] at h
  exact (F.write_append_inj hj hj' hstops hstops h).1

end Form

end Json

end Stepwise
