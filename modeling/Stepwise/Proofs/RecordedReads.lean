import Stepwise.Proofs.Value.Export
import Stepwise.Proofs.Value.Recasting
import Stepwise.Proofs.PropertyStore
/-!
A recorded state shows what can be read. Two cells that are written the same, in whatever form, read alike under every key that
is not the name of a field of an array: arrays show their elements and keep their fields to themselves.
-/

namespace Stepwise

/-- Two reads that come to values that look alike, or to the same fault. -/
inductive ReadsAlike : Except Fault Value → Except Fault Value → Prop
  | value {v w : Value} (h : v.LooksLike w) : ReadsAlike (.ok v) (.ok w)
  | fault (f : Fault) : ReadsAlike (.error f) (.error f)

namespace Cell

variable {cell cell' : Cell} {a : Address} {key : Text}

theorem isWhole_toJson (ha : a.toText.IsWhole) (helements : ∀ v ∈ cell.elements, v.IsWhole)
    (hfields : ∀ field ∈ cell.fields.entries, field.1.IsWhole ∧ field.2.IsWhole) : (cell.toJson a).IsWhole := by
  have hword {j : Json} {t : Text} (h : j.word? = some t) : j.IsWhole := Json.isWhole_of_word? h
  refine Json.isWhole_record (List.forall_mem_cons.mpr ⟨Json.isWhole_string_iff.mpr ha, List.forall_mem_cons.mpr
    ⟨Json.isWhole_ofString _, List.forall_mem_cons.mpr ⟨hword rfl, List.forall_mem_singleton.mpr ?_⟩⟩⟩)
  dsimp only
  split
  · exact Json.isWhole_array_iff.mpr (List.forall_mem_map.mpr fun v hv ↦ (helements v hv).toExport)
  · exact Json.isWhole_object_iff.mpr (List.forall_mem_map.mpr fun field hfield ↦
      ⟨(hfields field hfield).1, (hfields field hfield).2.toExport⟩)

/-- A key that is the name of a field of an array. -/
def Hides (cell : Cell) (key : Text) : Prop :=
  cell.isArray = true ∧ cell.Names key ∧ ¬ cell.Measures key ∧ cell.fields.get? key ≠ none

/-- What the entry of a cell tells: its kind and what it holds. -/
theorem of_toJson_eq (h : cell.toJson a = cell'.toJson a) : cell.isArray = cell'.isArray ∧
    (cell.isArray = true → cell.elements.map Value.toExport = cell'.elements.map Value.toExport) ∧
    (cell.isArray = false → cell.fields.mapValues Value.toExport = cell'.fields.mapValues Value.toExport) := by
  simp only [toJson, Json.record, Json.object.injEq, List.map_cons, List.map_nil, List.cons.injEq, Prod.mk.injEq, true_and,
    and_true] at h
  obtain ⟨htype, -, hvalue⟩ := h
  have htypes : ∀ b b' : Bool, (if b then "Array" else "Object") = (if b' then "Array" else "Object") → b = b' := by decide
  have hkind := htypes _ _ (Text.ofString_injective (Json.string.inj htype))
  refine ⟨hkind, fun harray ↦ ?_, fun harray ↦ ?_⟩
  · rw [← hkind, harray, if_pos rfl, if_pos rfl] at hvalue
    exact Json.array.inj hvalue
  · rw [← hkind, harray, if_neg Bool.false_ne_true, if_neg Bool.false_ne_true] at hvalue
    exact congrArg Dict.mk (Json.object.inj hvalue)

theorem Hides.of_names (hnames : cell.Names key) (hmeasures : ¬ cell.Measures key) (harray : cell.isArray = true)
    (h : ¬ cell.Hides key) : cell.fields.get? key = none := by
  by_contra hfield
  exact h ⟨harray, hnames, hmeasures, hfield⟩

theorem read_alike (h : cell.toJson a = cell'.toJson a) (hkey : ¬ cell.Hides key) (hkey' : ¬ cell'.Hides key) :
    ReadsAlike (cell.read key) (cell'.read key) := by
  obtain ⟨hkind, helements, hfields⟩ := of_toJson_eq h
  have hexports {v w : Value} (h : v.toExport = w.toExport) : ReadsAlike (.ok v) (.ok w) :=
    .value (Value.looksLike_of_toExport_eq h)
  by_cases hmeasures : cell.Measures key
  · have hmeasures' : cell'.Measures key := ⟨hkind ▸ hmeasures.1, hmeasures.2⟩
    have hlength : cell.elements.length = cell'.elements.length := by
      have := congrArg List.length (helements hmeasures.1)
      rwa [List.length_map, List.length_map] at this
    rw [read_of_measures hmeasures, read_of_measures hmeasures', hlength]
    exact .value (.same _)
  have hmeasures' : ¬ cell'.Measures key := fun h ↦ hmeasures ⟨hkind ▸ h.1, h.2⟩
  obtain hnames | ⟨i, hindex⟩ | ⟨f, hrefuses⟩ := cell.names_or key
  · have hnames' : cell'.Names key := fun harray ↦ hnames (hkind ▸ harray)
    rw [read_of_names hnames hmeasures, read_of_names hnames' hmeasures']
    cases harray : cell.isArray with
    | true =>
      rw [Hides.of_names hnames hmeasures harray hkey, Hides.of_names hnames' hmeasures' (hkind ▸ harray) hkey']
      exact .value (.same _)
    | false =>
      have hfield := congrArg (·.get? key) (hfields harray)
      rw [Dict.get?_mapValues, Dict.get?_mapValues] at hfield
      apply hexports
      rw [← Option.getD_map Value.toExport, ← Option.getD_map Value.toExport, hfield]
  · have hindex' : cell'.Indexes key i := ⟨hkind ▸ hindex.1, hindex.2⟩
    rw [read_of_indexes hindex, read_of_indexes hindex']
    apply hexports
    have helement := congrArg (·[i]?) (helements hindex.1)
    rw [List.getElem?_map, List.getElem?_map] at helement
    rw [List.getD_eq_getElem?_getD, List.getD_eq_getElem?_getD, ← Option.getD_map Value.toExport,
      ← Option.getD_map Value.toExport, helement]
  · have hrefuses' : cell'.Refuses key f := ⟨hkind ▸ hrefuses.1, hrefuses.2⟩
    rw [read_of_refuses hrefuses, read_of_refuses hrefuses']
    exact .fault f

end Cell

/-- What is written of an array or an object tells what is read of it. -/
theorem recorded_reads_alike (F : Json.Form) {heap heap' : Heap} {a : Address} {cell cell' : Cell} {depth : Nat} {key : Text}
    (hcell : heap.get? a = some cell) (hcell' : heap'.get? a = some cell')
    (hwhole : F.ascii = true → (cell.toJson a).IsWhole ∧ (cell'.toJson a).IsWhole)
    (h : F.write depth (cell.toJson a) = F.write depth (cell'.toJson a)) (hkey : ¬ cell.Hides key) (hkey' : ¬ cell'.Hides key) :
    ReadsAlike (heap.getProperty (.object a) key) (heap'.getProperty (.object a) key) := by
  have hjson := F.write_injective (fun hascii ↦ (hwhole hascii).1) (fun hascii ↦ (hwhole hascii).2) h
  have hread := Cell.read_alike hjson hkey hkey'
  unfold Heap.getProperty
  dsimp only
  rwa [hcell, hcell']

/-- An object with a function in it. -/
def holder (f : Function) : Cell := { isArray := false, fields := ⟨[(Text.ofString "f", .function f)]⟩ }

def nullFunction : Function := ⟨1, "f", ["x"], .expression .null, [], 3⟩

def undefinedFunction : Function := ⟨2, "f", ["x"], .expression .undefined, [4], 3⟩

theorem isWhole_holder (f : Function) : ((holder f).toJson (.object 1)).IsWhole := by
  refine Cell.isWhole_toJson (Text.isWhole_ofString _) (List.forall_mem_nil _) ?_
  exact List.forall_mem_singleton.mpr ⟨Text.isWhole_ofString _, trivial⟩

/-- Two functions that differ in what they do and in what they captured are written the same, in ASCII and with line breaks. -/
theorem recorded_reads_alike_functions :
    Json.Form.indented.write 0 ((holder nullFunction).toJson (.object 1)) =
      Json.Form.indented.write 0 ((holder undefinedFunction).toJson (.object 1)) ∧
    ((holder nullFunction).toJson (.object 1)).IsWhole ∧ ((holder undefinedFunction).toJson (.object 1)).IsWhole ∧
    ¬ (holder nullFunction).Hides "f" ∧ ¬ (holder undefinedFunction).Hides "f" ∧
    ReadsAlike (Heap.getProperty ⟨[(.object 1, holder nullFunction)]⟩ (.object (.object 1)) "f")
      (Heap.getProperty ⟨[(.object 1, holder undefinedFunction)]⟩ (.object (.object 1)) "f") := by
  have hshown (f : Function) : ¬ (holder f).Hides "f" := fun hhides ↦ Bool.false_ne_true hhides.1
  have hwhole := And.intro (isWhole_holder nullFunction) (isWhole_holder undefinedFunction)
  have htext : Json.Form.indented.write 0 ((holder nullFunction).toJson (.object 1)) =
      Json.Form.indented.write 0 ((holder undefinedFunction).toJson (.object 1)) := rfl
  exact ⟨htext, hwhole.1, hwhole.2, hshown _, hshown _,
    recorded_reads_alike .indented rfl rfl (fun _ ↦ hwhole) htext (hshown _) (hshown _)⟩

/-- An array shows no names, nan looks like its text, and in ASCII two surrogates look like the character that they are the
units of. -/
theorem recorded_reads_differ :
    (({ isArray := true } : Cell).toJson (.array 1)).compact true =
        (({ isArray := true, fields := ⟨[(Text.ofString "x", .ofInt 1)]⟩ } : Cell).toJson (.array 1)).compact true ∧
      ({ isArray := true } : Cell).read "x" = .ok .undefined ∧
      ({ isArray := true, fields := ⟨[(Text.ofString "x", .ofInt 1)]⟩ } : Cell).read "x" = .ok (.ofInt 1) ∧
    (({ isArray := true, elements := [.number (.float .nan)] } : Cell).toJson (.array 1)).compact true =
        (({ isArray := true, elements := [.ofString "nan"] } : Cell).toJson (.array 1)).compact true ∧
      ({ isArray := true, elements := [.number (.float .nan)] } : Cell).read "0" = .ok (.number (.float .nan)) ∧
      ({ isArray := true, elements := [.ofString "nan"] } : Cell).read "0" = .ok (.ofString "nan") ∧
    (({ isArray := true, elements := [.string [0xD83D, 0xDE00]] } : Cell).toJson (.array 1)).compact true =
        (({ isArray := true, elements := [.string [0x1F600]] } : Cell).toJson (.array 1)).compact true ∧
      ({ isArray := true, elements := [.string [0xD83D, 0xDE00]] } : Cell).read "0" = .ok (.string [0xD83D, 0xDE00]) ∧
      ({ isArray := true, elements := [.string [0x1F600]] } : Cell).read "0" = .ok (.string [0x1F600]) := by
  refine ⟨rfl, rfl, rfl, rfl, rfl, rfl, ?_, rfl, rfl⟩
  decide +kernel

end Stepwise
