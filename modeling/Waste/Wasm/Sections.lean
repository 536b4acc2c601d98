import Waste.Wasm.Leb

/-!
# The sections of a module

`decode.c` finds the sections of a module and decodes its imports, and `load.c` takes the
sections in turn.  What the loader does with a payload is a parameter (`Parsers`): a parser
gets the engine and the place of the payload, and answers with the engine and its cursor.
Memory for the directory is always granted.
-/

namespace Waste.Wasm

open List Prod

variable {σ : Type} {bytes : Bytes} {cursor next n : Nat}

/-! ## The directory -/

/-- `wasm_section`. -/
structure Section where
  payloadOffset : Nat
  payloadSize : Nat
  id : Nat

def Section.stop (sec : Section) : Nat := sec.payloadOffset + sec.payloadSize

/-- `wasm_reader_read_u32`: the value and the cursor. -/
def readU32 (bytes : Bytes) (stop cursor : Nat) : Option (Nat × Nat) :=
  match LebType.u32.read bytes stop cursor 0 with
  | some (.ok, cursor, value) => some (value.toNat, cursor)
  | _ => none

/-- `wasm_reader_read_bytes`: the cursor behind the bytes. -/
def readBytes (stop cursor size : Nat) : Option Nat :=
  if stop - cursor < size then none else some (cursor + size)

/-- The head of a section and its payload; `none` is "truncated section". -/
def readSection (bytes : Bytes) (cursor : Nat) : Option (Section × Nat) := do
  let id ← bytes[cursor]?
  let (size, cursor) ← readU32 bytes bytes.length (cursor + 1)
  let next ← readBytes bytes.length cursor size
  some (⟨cursor, size, id.toNat⟩, next)

/-- What stands in a module for a section. -/
structure Entry where
  id : BitVec 8
  size : Bytes
  payload : Bytes
  isSize : Leb false 32 size payload.length

def Entry.raw (e : Entry) : Bytes := e.id :: (e.size ++ e.payload)

/-- The section of an entry at an offset. -/
def Entry.section (offset : Nat) (e : Entry) : Section :=
  ⟨offset + 1 + e.size.length, e.payload.length, e.id.toNat⟩

theorem readU32_eq_some : readU32 bytes bytes.length cursor = some (n, next) ↔
    ∃ bs, Leb false 32 bs n ∧ bs <+: bytes.drop cursor ∧ next = cursor + bs.length := by
  unfold readU32
  constructor
  · intro h
    rcases @LebType.read_spec bytes .u32 cursor 0 with ⟨bs, v, hleb, hp, hr⟩ | ⟨-, e, hne, hr⟩
    · rw [hr] at h
      cases h
      have hv : (v.toNat : Int) = v := Int.toNat_of_nonneg hleb.inRange.1
      exact ⟨bs, hv ▸ hleb, hp, rfl⟩
    · cases e <;> simp_all
  · rintro ⟨bs, hleb, hp, rfl⟩
    rw [LebType.u32.read_eq hleb hp]
    rfl

theorem drop_eq_cons {b : BitVec 8} {l : Bytes} :
    bytes.drop cursor = b :: l ↔ bytes[cursor]? = some b ∧ bytes.drop (cursor + 1) = l := by
  rw [← head?_drop, ← tail_drop]
  cases bytes.drop cursor <;> simp

theorem readSection_eq_some {sec : Section} : readSection bytes cursor = some (sec, next) ↔
    ∃ e : Entry, e.raw <+: bytes.drop cursor ∧ sec = e.section cursor ∧
      next = cursor + e.raw.length := by
  simp only [readSection, readBytes, Option.bind_eq_bind, Option.bind_eq_some_iff, Prod.exists,
    readU32_eq_some]
  constructor
  · rintro ⟨id, hid, size, c, ⟨bs, hleb, ⟨r, hr⟩, rfl⟩, next, hnext, heq⟩
    split_ifs at hnext with hle
    cases hnext
    cases heq
    have hlen := congrArg length hr
    simp only [length_append, length_drop] at hlen
    obtain ⟨payload, rest, rfl, rfl⟩ : ∃ p q, r = p ++ q ∧ size = p.length :=
      ⟨r.take size, r.drop size, (take_append_drop size r).symm, by rw [length_take]; omega⟩
    refine ⟨⟨id, bs, payload, hleb⟩, ⟨rest, ?_⟩, rfl, ?_⟩
    · rw [drop_eq_cons.2 ⟨hid, hr.symm⟩, Entry.raw, cons_append, append_assoc]
    · simp only [Entry.raw, length_cons, length_append]
      omega
  · rintro ⟨e, ⟨r, hr⟩, rfl, rfl⟩
    rw [Entry.raw, cons_append, append_assoc] at hr
    obtain ⟨hid, hdrop⟩ := drop_eq_cons.1 hr.symm
    have hlen := congrArg length hdrop
    simp only [length_append, length_drop] at hlen
    refine ⟨e.id, hid, e.payload.length, _, ⟨e.size, e.isSize, ⟨_, hdrop.symm⟩, rfl⟩, _,
      if_neg (by omega), ?_⟩
    simp only [Entry.section, Entry.raw, length_cons, length_append, Option.some.injEq,
      mk.injEq, true_and]
    omega

/-- The sections that can be read in turn, and whether the next one is truncated. -/
def readSections (bytes : Bytes) (cursor : Nat) : List Section × Bool :=
  if cursor < bytes.length then
    match _h : readSection bytes cursor with
    | none => ([], true)
    | some (sec, next) => (readSections bytes next).map (sec :: ·) id
  else ([], false)
termination_by bytes.length - cursor
decreasing_by
  obtain ⟨e, -, -, rfl⟩ := readSection_eq_some.1 _h
  simp only [Entry.raw, length_cons]
  omega

def decodeSectionDirectory (bytes : Bytes) : Option (List Section) :=
  match readSections bytes 8 with
  | (sections, false) => some sections
  | (_, true) => none

/-- The sections of entries that stand from an offset on. -/
def layout : Nat → List Entry → List Section
  | _, [] => []
  | offset, e :: es => e.section offset :: layout (offset + e.raw.length) es

theorem readSections_eq {sections : List Section} : readSections bytes cursor = (sections, false) ↔
      ∃ es : List Entry, bytes.drop cursor = es.flatMap Entry.raw ∧ sections =
      layout cursor es := by
  constructor
  · fun_induction readSections bytes cursor generalizing sections with
    | case1 cursor hlt _ => exact nofun
    | case2 cursor hlt _ next hsome ih =>
      intro h
      obtain ⟨e, ⟨r, hr⟩, rfl, rfl⟩ := readSection_eq_some.1 hsome
      obtain ⟨hsections, hread⟩ := mk.inj h
      obtain ⟨es, hes, hlayout⟩ := ih (Prod.ext rfl hread)
      refine ⟨e :: es, ?_, hsections.symm.trans (congrArg (e.section cursor :: ·) hlayout)⟩
      rw [flatMap_cons, ← hes, ← drop_drop, ← hr, drop_left]
    | case3 cursor hge =>
      intro h
      cases h
      exact ⟨[], drop_eq_nil_of_le (not_lt.1 hge), rfl⟩
  · rintro ⟨es, hes, rfl⟩
    induction es generalizing cursor with
    | nil =>
      rw [readSections, if_neg (by simpa using hes)]
      rfl
    | cons e es ih =>
      rw [flatMap_cons] at hes
      have hread := readSection_eq_some.2 ⟨e, ⟨_, hes.symm⟩, rfl, rfl⟩
      have hlt : cursor < bytes.length := by
        by_contra hge
        rw [drop_eq_nil_of_le (not_lt.1 hge)] at hes
        cases hes
      have hrest := @ih (cursor + e.raw.length) (by rw [← drop_drop, hes, drop_left])
      rw [readSections, if_pos hlt]
      split
      · simp_all
      · next hsome =>
        cases hread.symm.trans hsome
        rw [hrest]
        rfl

/-! ## The loader -/

structure Parsers (σ : Type) where
  validUtf8 : Bytes → Bool
  /-- `decode_import_section` before its last test. -/
  decodeImports : (cursor stop : Nat) → Except String Nat
  instantiateImports : σ → Except String σ
  setDataCount : Nat → σ → σ
  parse : (id : Nat) → σ → (cursor stop : Nat) → Except String (σ × Nat)
  /-- What follows the last section. -/
  finish : List Nat → σ → Except String σ

section

variable (P : Parsers σ) (bytes : Bytes)

/-- The loop of `decode_module_imports` over what `readSections` reads. -/
def decodeModuleImports (truncated : Bool) : List Section → Except String Unit
  | [] => if truncated then .error "truncated section" else .ok ()
  | sec :: rest =>
    if sec.id = 2 then
      match P.decodeImports sec.payloadOffset sec.stop with
      | .error e => .error e
      | .ok cursor =>
        if cursor ≠ sec.stop then .error "trailing bytes in import section" else .ok ()
    else if 2 < sec.id then .ok ()
    else decodeModuleImports truncated rest

/-- The switch over the sections: the engine and the cursor. -/
def parsePayload (sec : Section) (engine : σ) : Except String (σ × Nat) :=
  match sec.id with
  | 0 =>
    match readU32 bytes sec.stop sec.payloadOffset with
    | none => .error "malformed UTF-8 encoding"
    | some (length, cursor) =>
      if (readBytes sec.stop cursor length).isSome ∧
          P.validUtf8 ((bytes.drop cursor).take length) then .ok (engine, sec.stop)
      else .error "malformed UTF-8 encoding"
  | 2 => (P.instantiateImports engine).map (·, sec.stop)
  | 12 =>
    match readU32 bytes sec.stop sec.payloadOffset with
    | none => .error "invalid data count section"
    | some (count, cursor) => .ok (P.setDataCount count engine, cursor)
  | id => P.parse id engine sec.payloadOffset sec.stop

def sectionRank (id : Nat) : Nat :=
  if id ≤ 5 then id else if id = 13 then 6 else if id ≤ 9 then id + 1
  else if id = 12 then 11 else if id = 10 then 12 else 13

structure Loading (σ : Type) where
  engine : σ
  lastSectionRank : Nat
  seenSections : List Nat

/-- One turn of `load_decoded_with_imports`. -/
def loadSection (sec : Section) (l : Loading σ) : Except String (Loading σ) :=
  if 13 < sec.id then .error "unsupported standard section"
  else if sec.id ≠ 0 ∧ sec.id ∈ l.seenSections then .error "duplicate standard section"
  else if sec.id ≠ 0 ∧ sectionRank sec.id < l.lastSectionRank then .error "out-of-order section"
  else
    match parsePayload P bytes sec l.engine with
    | .error e => .error e
    | .ok (engine, cursor) =>
      if sec.id = 0 then .ok { l with engine }
      else if cursor ≠ sec.stop then .error "trailing bytes in section"
      else .ok ⟨engine, sectionRank sec.id, sec.id :: l.seenSections⟩

def loadSections : List Section → Loading σ → Except String (Loading σ)
  | [], l => .ok l
  | sec :: rest, l => (loadSection P bytes sec l).bind (loadSections rest)

def header : Bytes := [0x00, 0x61, 0x73, 0x6d, 0x01, 0x00, 0x00, 0x00]

/-- `wasm_decode_module` or, for a module that is not fully decoded,
`wasm_decode_module_imports`, and then `load_decoded_with_imports`. -/
def load (fullyDecoded : Bool) (engine : σ) : Except String σ := do
  if ¬header <+: bytes then throw "invalid Wasm header"
  let (sections, truncated) := readSections bytes 8
  decodeModuleImports P truncated sections
  if fullyDecoded ∧ truncated then throw "truncated section"
  let l ← loadSections P bytes sections ⟨engine, 0, []⟩
  if truncated then throw "truncated section"
  P.finish l.seenSections l.engine

/-- The order of the sections, by their ids. -/
def specOrder : List Nat := [1, 2, 3, 4, 5, 13, 6, 7, 8, 9, 12, 10, 11]

/-- Every parser ends at the end of its payload. -/
def Consumed : List Section → σ → Prop
  | [], _ => True
  | sec :: rest, s => ∃ s', parsePayload P bytes sec s = .ok (s', sec.stop) ∧ Consumed rest s'

end

variable {P : Parsers σ} {sec : Section} {sections : List Section} {l l' : Loading σ}

theorem parsePayload_custom {engine s : σ} {c : Nat} (hid : sec.id = 0)
    (h : parsePayload P bytes sec engine = .ok (s, c)) : c = sec.stop := by
  simp only [parsePayload, hid] at h
  split at h
  · cases h
  · split_ifs at h
    cases h
    rfl

/-- What a turn of the loader says about its section. -/
theorem loadSection_ok (h : loadSection P bytes sec l = .ok l') :
    parsePayload P bytes sec l.engine = .ok (l'.engine, sec.stop) ∧
      (sec.id = 0 ∧ l' = { l with engine := l'.engine } ∨
        sec.id ∈ specOrder ∧ sec.id ∉ l.seenSections ∧ l.lastSectionRank ≤ sectionRank sec.id ∧
          l' = ⟨l'.engine, sectionRank sec.id, sec.id :: l.seenSections⟩) := by
  have hall : ∀ i < 14, i ≠ 0 → i ∈ specOrder := by decide
  unfold loadSection at h
  cases hparse : parsePayload P bytes sec l.engine with
  | error e =>
    rw [hparse] at h
    split_ifs at h
  | ok r =>
    obtain ⟨engine, c⟩ := r
    rw [hparse] at h
    dsimp only at h
    split_ifs at h with h13 hseen hrank h0 hstop
    · cases h
      rw [parsePayload_custom h0 hparse]
      exact ⟨rfl, .inl ⟨h0, rfl⟩⟩
    · cases h
      rw [not_not.1 hstop]
      exact ⟨rfl, .inr ⟨hall _ (by omega) h0, fun h => hseen ⟨h0, h⟩,
        not_lt.1 fun h => hrank ⟨h0, h⟩, rfl⟩⟩

/-- The last section that was not custom is on the record. -/
def Loading.Tracked (l : Loading σ) : Prop :=
  l.lastSectionRank = 0 ∨ ∃ i ∈ l.seenSections, i ∈ specOrder ∧ sectionRank i = l.lastSectionRank

theorem loadSections_ok (hl : l.Tracked) (h : loadSections P bytes sections l = .ok l') :
    (sections.map Section.id).filter (· ≠ 0) <+ specOrder.drop l.lastSectionRank ∧
      Consumed P bytes sections l.engine := by
  induction sections generalizing l with
  | nil => exact ⟨nil_sublist _, trivial⟩
  | cons sec rest ih =>
    obtain ⟨m, hm, hrest⟩ : ∃ m, loadSection P bytes sec l = .ok m ∧
        loadSections P bytes rest m = .ok l' := by
      unfold loadSections at h
      cases hm : loadSection P bytes sec l with
      | error e => rw [hm] at h; cases h
      | ok m => exact ⟨m, rfl, by rwa [hm] at h⟩
    obtain ⟨hparse, ⟨h0, heq⟩ | ⟨hid, hnew, hrank, heq⟩⟩ := loadSection_ok hm
    · rw [heq] at hrest
      obtain ⟨hsub, hcons⟩ := ih (by exact hl) hrest
      refine ⟨?_, m.engine, hparse, hcons⟩
      rwa [map_cons, filter_cons_of_neg (by simp [h0])]
    rw [heq] at hrest
    obtain ⟨hsub, hcons⟩ := ih (.inr ⟨sec.id, mem_cons_self, hid, rfl⟩) hrest
    refine ⟨?_, m.engine, hparse, hcons⟩
    have hinj : ∀ i ∈ specOrder, ∀ j ∈ specOrder, sectionRank i = sectionRank j → i = j := by
      decide
    have hpos : ∀ i ∈ specOrder, i ≠ 0 ∧ 0 < sectionRank i ∧
        specOrder.drop (sectionRank i - 1) = i :: specOrder.drop (sectionRank i) := by decide
    obtain ⟨hne, h0, hdrop⟩ := hpos _ hid
    have hlt : l.lastSectionRank < sectionRank sec.id := by
      rcases hl with hzero | ⟨i, hi, hspec, hsame⟩
      · omega
      · refine lt_of_le_of_ne hrank fun h => hnew ?_
        rwa [← hinj i hspec _ hid (hsame.trans h)]
    rw [map_cons, filter_cons_of_pos (by simpa using hne)]
    refine trans ?_ (drop_sublist_drop_left specOrder (Nat.le_sub_one_of_lt hlt))
    rw [hdrop]
    exact hsub.cons_cons _

/-- The import section comes before all that is not custom and not the type section, so it is
found when the imports are decoded. -/
theorem decodeModuleImports_ok {truncated : Bool}
    (h : decodeModuleImports P truncated sections = .ok ())
    (horder : sections.Pairwise fun a b => b.id = 2 → a.id ≤ 1) :
    ∀ sec ∈ sections, sec.id = 2 → P.decodeImports sec.payloadOffset sec.stop = .ok sec.stop := by
  induction sections with
  | nil => exact nofun
  | cons _ _ ih =>
    obtain ⟨hfirst, horder⟩ := pairwise_cons.1 horder
    intro sec' hmem h2
    unfold decodeModuleImports at h
    rcases mem_cons.1 hmem with rfl | hmem
    · rw [if_pos h2] at h
      split at h
      · cases h
      · next hdecode =>
        split_ifs at h with hstop
        rw [hdecode, not_not.1 hstop]
    · have := hfirst sec' hmem h2
      rw [if_neg (by omega), if_neg (by omega)] at h
      exact ih h horder sec' hmem h2

/-- The directory is that of the entries that the bytes after the header consist of, and there
is none for other bytes.  What the loader accepts has such entries, the standard sections in
the prescribed order, at most one of each, and no bytes of a payload are left. -/
theorem section_layout (rest : Bytes) :
    (∀ sections, decodeSectionDirectory (header ++ rest) = some sections ↔
      ∃ es : List Entry, rest = es.flatMap Entry.raw ∧ sections = layout 8 es) ∧
    ∀ (P : Parsers σ) (fullyDecoded : Bool) (engine engine' : σ),
      load P (header ++ rest) fullyDecoded engine = .ok engine' →
      ∃ sections, decodeSectionDirectory (header ++ rest) = some sections ∧
        (sections.map Section.id).filter (· ≠ 0) <+ specOrder ∧
        Consumed P (header ++ rest) sections engine ∧
        ∀ sec ∈ sections, sec.id = 2 →
          P.decodeImports sec.payloadOffset sec.stop = .ok sec.stop := by
  have hdirectory : ∀ sections, decodeSectionDirectory (header ++ rest) = some sections ↔
      readSections (header ++ rest) 8 = (sections, false) := by
    intro sections
    unfold decodeSectionDirectory
    split <;> simp_all
  refine ⟨fun sections => (hdirectory sections).trans readSections_eq,
    fun P full engine engine' h => ?_⟩
  unfold load at h
  generalize readSections (header ++ rest) 8 = r at hdirectory h
  obtain ⟨sections, truncated⟩ := r
  simp only [prefix_append, not_true_eq_false, if_false, bind, Except.bind] at h
  cases himports : decodeModuleImports P truncated sections with
  | error e => simp [himports] at h
  | ok =>
    cases hload : loadSections P (header ++ rest) sections ⟨engine, 0, []⟩ with
    | error e =>
      simp [himports, hload] at h
      split_ifs at h
    | ok l =>
      have htruncated : truncated = false := by
        cases truncated with
        | false => rfl
        | true => cases full <;> simp [himports, hload] at h
      obtain ⟨horder, hcons⟩ := loadSections_ok (.inl rfl) hload
      refine ⟨sections, (hdirectory sections).2 (by rw [htruncated]), horder, hcons,
        decodeModuleImports_ok himports ?_⟩
      have hpair : specOrder.Pairwise fun a b => b = 2 → a ≤ 1 := by decide
      refine (pairwise_map.1 (pairwise_filter.1 (hpair.sublist horder))).imp fun {a b} h h2 => ?_
      by_cases ha : a.id = 0
      · omega
      · exact h (by simpa using ha) (by simp [h2]) h2

/-- Parsers that read every payload to its end and keep the ids. -/
def idParsers : Parsers (List Nat) where
  validUtf8 _ := true
  decodeImports _ stop := .ok stop
  instantiateImports := .ok
  setDataCount _ ids := ids
  parse id ids _ stop := .ok (ids ++ [id], stop)
  finish _ := .ok

example : load idParsers (header ++ [0, 2, 1, 0x61, 1, 1, 0, 3, 1, 0]) true [] = .ok [1, 3] := by
  decide +kernel

end Waste.Wasm
