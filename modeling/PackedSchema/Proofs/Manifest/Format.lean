import PackedSchema.Manifest.Summary
import PackedSchema.Proofs.Manifest.Packing
import Mathlib.Tactic.Ring

/-!
# The format of values

The bytes of values as a relation, kind by kind, which says nothing about how they are read. Unpacking
accepts exactly these bytes: all kinds of values are found, at any number of items that the bytes can hold,
and every byte string that is accepted is one complete value.
-/

namespace PackedSchema.Manifest

/-! ## Numbers in front of values -/

/-- How a number is written in front of a value of some kind: as a byte of its own, or behind a byte that
says how many bytes spell it. -/
structure Form where
  single : List (UInt8 × Nat)
  spelled : List (UInt8 × Nat)

/-- The bytes from `first` on, for the numbers from zero on. -/
def singles (first count : Nat) : List (UInt8 × Nat) :=
  (List.range count).map fun n => (UInt8.ofNat (first + n), n)

/-- The bytes write the number in this form. -/
inductive Form.Writes (f : Form) : Nat → List UInt8 → Prop
  | single {head : UInt8} {n : Nat} (h : (head, n) ∈ f.single) : f.Writes n [head]
  | spelled {head : UInt8} {digits : List UInt8} (h : (head, digits.length) ∈ f.spelled) :
      f.Writes (ofBigEndian digits) (head :: digits)

def naturalForm : Form := ⟨singles 0x00 0x80, [(0xcc, 1), (0xcd, 2), (0xce, 4), (0xcf, 8)]⟩

def textForm : Form := ⟨singles 0xa0 0x20, [(0xd9, 1), (0xda, 2), (0xdb, 4)]⟩

def bytesForm : Form := ⟨[], [(0xc4, 1), (0xc5, 2), (0xc6, 4)]⟩

def listForm : Form := ⟨singles 0x90 0x10, [(0xdc, 2), (0xdd, 4)]⟩

def mapForm : Form := ⟨singles 0x80 0x10, [(0xde, 2), (0xdf, 4)]⟩

def extForm : Form :=
  ⟨[(0xd4, 1), (0xd5, 2), (0xd6, 4), (0xd7, 8), (0xd8, 16)], [(0xc7, 1), (0xc8, 2), (0xc9, 4)]⟩

/-- The bytes in front of a number in two's complement, and how many bytes spell it. -/
def signedHeads : List (UInt8 × Nat) := [(0xd0, 1), (0xd1, 2), (0xd2, 4), (0xd3, 8)]

/-! ## Bytes of values -/

/-- The seconds and nanoseconds that the bytes of a timestamp give. -/
inductive Timed : List UInt8 → Int → Nat → Prop
  | seconds {data : List UInt8} (h : data.length = 4) : Timed data (ofBigEndian data) 0
  /-- The low 34 bits are seconds, the others nanoseconds. -/
  | both {data : List UInt8} (h : data.length = 8) :
      Timed data (ofBigEndian data % 2 ^ 34 : Nat) (ofBigEndian data / 2 ^ 34)
  | apart {nanoseconds seconds : List UInt8} (h : nanoseconds.length = 4) (h' : seconds.length = 8) :
      Timed (nanoseconds ++ seconds) (signed 64 (ofBigEndian seconds)) (ofBigEndian nanoseconds)

/-- The bytes behind the number that is in front of a value with a code. -/
inductive Coded (n : Nat) : Value → List UInt8 → Prop
  | ext {code : UInt8} {data : List UInt8} (h : data.length = n) (hcode : code.toNat < 0x80) :
      Coded n (.ext code.toNat data) (code :: data)
  | timestamp {data : List UInt8} {seconds : Int} {nanoseconds : Nat} (h : data.length = n)
      (htime : Timed data seconds nanoseconds) (hless : nanoseconds < 10 ^ 9) :
      Coded n (.timestamp seconds nanoseconds) (0xff :: data)

/-- The bytes of a value that is no container. -/
inductive Plainly : Value → List UInt8 → Prop
  | nil : Plainly .nil [0xc0]
  | no : Plainly (.bool false) [0xc2]
  | yes : Plainly (.bool true) [0xc3]
  | natural {n : Nat} {bytes : List UInt8} (h : naturalForm.Writes n bytes) : Plainly (.int n) bytes
  | negative {head : UInt8} (h : 0xe0 ≤ head.toNat) : Plainly (.int (head.toNat - 0x100)) [head]
  | signed {head : UInt8} {digits : List UInt8} (h : (head, digits.length) ∈ signedHeads) :
      Plainly (.int (signed (8 * digits.length) (ofBigEndian digits))) (head :: digits)
  | single {digits : List UInt8} (h : digits.length = 4) :
      Plainly (.float (Decimal.Binary.widen (ofBigEndian digits))) (0xca :: digits)
  | double {digits : List UInt8} (h : digits.length = 8) :
      Plainly (.float (ofBigEndian digits)) (0xcb :: digits)
  | text {s : String} {front : List UInt8} (h : textForm.Writes (Text.Utf8.encode s).length front) :
      Plainly (.text s) (front ++ Text.Utf8.encode s)
  | bytes {data front : List UInt8} (h : bytesForm.Writes data.length front) :
      Plainly (.bytes data) (front ++ data)
  | coded {n : Nat} {v : Value} {front back : List UInt8} (h : extForm.Writes n front)
      (hback : Coded n v back) : Plainly v (front ++ back)

/-- The bytes of a key and those of its value behind them. -/
def Paired (inner : Value → List UInt8 → Prop) (entry : Key × Value) (bytes : List UInt8) : Prop :=
  ∃ front back, bytes = front ++ back ∧ inner entry.1.value front ∧ inner entry.2 back

/-- A map of entries, where a later one of the same key gives it a new value. -/
def Value.ofEntries (es : List (Key × Value)) (entries : List (Key × Value)) : List (Key × Value) :=
  entries.foldl (fun es e => Value.insert e.1 e.2 es) es

/-- The bytes of a value whose items are written in some way. -/
inductive Composed (inner : Value → List UInt8 → Prop) : Value → List UInt8 → Prop
  | plain {v : Value} {bytes : List UInt8} (h : Plainly v bytes) : Composed inner v bytes
  | list {items : List Value} {parts : List (List UInt8)} {front : List UInt8}
      (h : listForm.Writes items.length front) (hitems : List.Forall₂ inner items parts) :
      Composed inner (.list items) (front ++ parts.flatten)
  | map {entries : List (Key × Value)} {parts : List (List UInt8)} {front : List UInt8}
      (h : mapForm.Writes entries.length front) (hentries : List.Forall₂ (Paired inner) entries parts) :
      Composed inner (.map (Value.ofEntries [] entries)) (front ++ parts.flatten)

/-- The bytes of a value with containers nested to a depth. -/
def Encoded : (depth : Nat) → Value → List UInt8 → Prop
  | 0 => Plainly
  | depth + 1 => Composed (Encoded depth)

/-! ## Numbers that bytes spell -/

theorem ofBigEndian_append (a b : List UInt8) :
    ofBigEndian (a ++ b) = ofBigEndian a * 256 ^ b.length + ofBigEndian b := by
  unfold ofBigEndian
  rw [List.foldl_append]
  -- Whatever the first bytes spell is where the others go on from.
  generalize a.foldl (fun n b => 256 * n + b.toNat) 0 = start
  induction b generalizing start with
  | nil => simp
  | cons c b ih =>
    rw [List.foldl_cons, List.foldl_cons, ih, ih (256 * 0 + c.toNat), List.length_cons, pow_succ]
    ring

theorem ofBigEndian_lt (b : List UInt8) : ofBigEndian b < 256 ^ b.length := by
  induction b using List.reverseRecOn with
  | nil => simp [ofBigEndian]
  | append_singleton b c ih =>
    have hc := c.toNat_lt
    have hone : ofBigEndian [c] = c.toNat := by simp [ofBigEndian]
    rw [ofBigEndian_append, hone, List.length_append, List.length_singleton, pow_one, pow_succ]
    omega

theorem timestampOf_eq_ok_iff {data : List UInt8} {seconds : Int} {nanoseconds : Nat} :
    timestampOf data = .ok (seconds, nanoseconds) ↔ Timed data seconds nanoseconds := by
  constructor
  · intro h
    unfold timestampOf at h
    simp only [Nat.pow_eq] at h
    split at h
    case h_1 hlength =>
      cases h
      exact .seconds hlength
    case h_2 hlength =>
      cases h
      exact .both hlength
    case h_3 hlength =>
      cases h
      -- The first four bytes are the nanoseconds, the others the seconds.
      have hfront : (data.take 4).length = 4 := by simp; omega
      have hback : (data.drop 4).length = 8 := by simp; omega
      have hlow := ofBigEndian_lt (data.drop 4)
      have hsum := ofBigEndian_append (data.take 4) (data.drop 4)
      rw [List.take_append_drop, hback] at hsum
      rw [hback] at hlow
      have hmod : ofBigEndian data % 2 ^ 64 = ofBigEndian (data.drop 4) := by omega
      have hdiv : ofBigEndian data / 2 ^ 64 = ofBigEndian (data.take 4) := by omega
      have htimed := Timed.apart hfront hback
      rwa [List.take_append_drop, ← hmod, ← hdiv] at htimed
    case h_4 => cases h
  · intro h
    cases h with
    | seconds h => simp [timestampOf, h]
    | both h => simp [timestampOf, h]
    | @apart nanoseconds seconds h h' =>
      have hlow := ofBigEndian_lt seconds
      have hsum := ofBigEndian_append nanoseconds seconds
      rw [h'] at hsum hlow
      have hmod : ofBigEndian (nanoseconds ++ seconds) % 2 ^ 64 = ofBigEndian seconds := by omega
      have hdiv : ofBigEndian (nanoseconds ++ seconds) / 2 ^ 64 = ofBigEndian nanoseconds := by omega
      have hlength : (nanoseconds ++ seconds).length = 12 := by simp [h, h']
      simp only [timestampOf, hlength, Nat.pow_eq, hmod, hdiv]

/-! ## Readers of a format -/

/-- From at most `bound` bytes, the reader takes those in front that have the format, and gives what they
are the bytes of. -/
def Reads {α : Type} (bound : Nat) (u : Unpacker α) (format : α → List UInt8 → Prop) : Prop :=
  ∀ bytes a rest, bytes.length ≤ bound →
    (u bytes = .ok (a, rest) ↔ ∃ front, bytes = front ++ rest ∧ format a front)

section Readers

variable {α β : Type} {bound n width : Nat} {u : Unpacker α} {format : α → List UInt8 → Prop}

theorem Reads.congr {format' : α → List UInt8 → Prop} (h : Reads bound u format)
    (heq : ∀ a front, format a front ↔ format' a front) : Reads bound u format' := by
  intro bytes a rest hbytes
  simp only [h bytes a rest hbytes, heq]

theorem Reads.bind {f : α → Unpacker β} {format' : α → β → List UInt8 → Prop} (hu : Reads bound u format)
    (hf : ∀ a, Reads bound (f a) (format' a)) :
    Reads bound (fun bytes => u bytes >>= fun r => f r.1 r.2)
      (fun b bytes => ∃ a front back, bytes = front ++ back ∧ format a front ∧ format' a b back) := by
  intro bytes b rest hbytes
  constructor
  · intro h
    obtain ⟨⟨a, more⟩, hfirst, hsecond⟩ := bind_eq_ok_iff.mp h
    obtain ⟨front, rfl, hfront⟩ := (hu bytes a more hbytes).mp hfirst
    rw [List.length_append] at hbytes
    obtain ⟨back, rfl, hback⟩ := (hf a more b rest (by omega)).mp hsecond
    exact ⟨front ++ back, (List.append_assoc ..).symm, a, front, back, rfl, hfront, hback⟩
  · rintro ⟨_, rfl, a, front, back, rfl, hfront, hback⟩
    rw [List.append_assoc] at hbytes ⊢
    refine bind_eq_ok_iff.mpr ⟨(a, back ++ rest), (hu _ a _ hbytes).mpr ⟨front, rfl, hfront⟩, ?_⟩
    rw [List.length_append] at hbytes
    exact (hf a (back ++ rest) b rest (by omega)).mpr ⟨back, rfl, hback⟩

/-- A check in front of a reader takes no bytes. -/
theorem reads_checked {x : Except UnpackFault α} {f : α → Unpacker β} {format' : α → β → List UInt8 → Prop}
    (hf : ∀ a, Reads bound (f a) (format' a)) :
    Reads bound (fun bytes => x >>= fun a => f a bytes) fun b front => ∃ a, x = .ok a ∧ format' a b front := by
  intro bytes b rest hbytes
  constructor
  · intro h
    obtain ⟨a, ha, h⟩ := bind_eq_ok_iff.mp h
    obtain ⟨front, rfl, hfront⟩ := (hf a bytes b rest hbytes).mp h
    exact ⟨front, rfl, a, ha, hfront⟩
  · rintro ⟨front, rfl, a, ha, hfront⟩
    exact bind_eq_ok_iff.mpr ⟨a, ha, (hf a _ b rest hbytes).mpr ⟨front, rfl, hfront⟩⟩

theorem reads_pure (a : α) : Reads bound (fun bytes => .ok (a, bytes)) fun b front => b = a ∧ front = [] := by
  intro bytes b rest _
  constructor
  · intro h
    cases h
    exact ⟨[], rfl, rfl, rfl⟩
  · rintro ⟨_, rfl, rfl, rfl⟩
    rfl

theorem reads_bytes (n : Nat) : Reads bound (takeBytes n) fun b front => front = b ∧ b.length = n := by
  intro bytes b rest _
  constructor
  · intro h
    unfold takeBytes at h
    split at h
    case isTrue => cases h
    case isFalse hlong =>
      cases h
      exact ⟨_, (List.take_append_drop n bytes).symm, rfl, by simp; omega⟩
  · rintro ⟨_, rfl, rfl, rfl⟩
    exact takeBytes_append rfl

theorem reads_nat (width : Nat) :
    Reads bound (takeNat width) fun n front => front.length = width ∧ n = ofBigEndian front := by
  have h : Reads bound (takeNat width) _ := (reads_bytes width).bind fun b => reads_pure (ofBigEndian b)
  refine h.congr fun n front => ⟨?_, ?_⟩
  · rintro ⟨b, _, _, rfl, ⟨rfl, hwidth⟩, rfl, rfl⟩
    rw [List.append_nil]
    exact ⟨hwidth, rfl⟩
  · rintro ⟨hwidth, rfl⟩
    exact ⟨front, front, [], (List.append_nil _).symm, ⟨rfl, hwidth⟩, rfl, rfl⟩

theorem reads_asValue {u : Unpacker Value} {format : Value → List UInt8 → Prop} (hu : Reads bound u format) :
    Reads bound (asValue u) fun head front => ∃ v, head = .value v ∧ format v front := by
  have h : Reads bound (asValue u) _ := hu.bind fun v => reads_pure (Head.value v)
  refine h.congr fun head front => ⟨?_, ?_⟩
  · rintro ⟨v, _, _, rfl, hv, rfl, rfl⟩
    rw [List.append_nil]
    exact ⟨v, rfl, hv⟩
  · rintro ⟨v, rfl, hv⟩
    exact ⟨v, front, [], (List.append_nil _).symm, hv, rfl, rfl⟩

theorem reads_text (n : Nat) :
    Reads bound (takeText n) fun v front =>
      ∃ s, v = .text s ∧ front = Text.Utf8.encode s ∧ front.length = n := by
  intro bytes v rest hbytes
  constructor
  · intro h
    obtain ⟨⟨b, more⟩, hfirst, h⟩ := bind_eq_ok_iff.mp h
    obtain ⟨front, rfl, rfl, hlength⟩ := (reads_bytes n bytes b more hbytes).mp hfirst
    dsimp only at h
    cases hdecode : Text.Utf8.decode front with
    | error f =>
      rw [hdecode] at h
      cases h
    | ok s =>
      rw [hdecode] at h
      cases h
      exact ⟨front, rfl, s, rfl, Text.Utf8.decode_eq_ok_iff.mp hdecode, hlength⟩
  · rintro ⟨_, rfl, s, rfl, rfl, rfl⟩
    exact takeText_encode s

theorem takeExt_cons (code : UInt8) (data rest : List UInt8) :
    takeExt data.length (code :: data ++ rest) =
      if code = 0xff then
        timestampOf data >>= fun time =>
          if 10 ^ 9 ≤ time.2 then .error .badNanoseconds else .ok (.timestamp time.1 time.2, rest)
      else if 0x80 ≤ code.toNat then .error .badCode
      else .ok (.ext code.toNat data, rest) := by
  have hlt := code.toNat_lt
  have hone : ofBigEndian [code] = code.toNat := by simp [ofBigEndian]
  -- Codes are in two's complement; the highest byte is minus one, the code of timestamps.
  have htime : signed 8 code.toNat = -1 ↔ code = 0xff := by
    rw [← UInt8.toNat_inj]
    simp only [signed, Nat.pow_eq]
    split <;> simp <;> omega
  have hsign : signed 8 code.toNat < 0 ↔ 0x80 ≤ code.toNat := by
    simp only [signed, Nat.pow_eq]
    split <;> omega
  unfold takeExt
  rw [takeBytes_append (show (code :: data).length = data.length + 1 from rfl)]
  simp only [bind, Except.bind, List.take_succ_cons, List.take_zero, List.drop_succ_cons, List.drop_zero, hone,
    htime, hsign, Nat.pow_eq]
  split
  · rfl
  split
  · rfl
  case isFalse hcode =>
    have hsame : (signed 8 code.toNat).toNat = code.toNat := by
      simp only [signed, Nat.pow_eq]
      rw [if_pos (by omega), Int.toNat_natCast]
    rw [hsame]
    rfl

theorem reads_ext (n : Nat) : Reads bound (takeExt n) (Coded n) := by
  intro bytes v rest hbytes
  constructor
  · intro h
    -- There are bytes for a code and the data, or nothing is read.
    obtain ⟨⟨b, more⟩, hfirst, -⟩ := bind_eq_ok_iff.mp h
    obtain ⟨front, rfl, rfl, hlength⟩ := (reads_bytes (n + 1) bytes b more hbytes).mp hfirst
    cases front with
    | nil => cases hlength
    | cons code data =>
      obtain rfl : data.length = n := by simpa using hlength
      rw [takeExt_cons] at h
      split at h
      case isTrue hcode =>
        obtain ⟨⟨seconds, nanoseconds⟩, htime, h⟩ := bind_eq_ok_iff.mp h
        split at h
        · cases h
        case isFalse hless =>
          cases h
          subst hcode
          exact ⟨_, rfl, .timestamp rfl (timestampOf_eq_ok_iff.mp htime) (by simpa using hless)⟩
      case isFalse =>
        split at h
        · cases h
        case isFalse hcode =>
          cases h
          exact ⟨_, rfl, .ext rfl (by omega)⟩
  · rintro ⟨front, rfl, hcoded⟩
    cases hcoded with
    | @ext code data h hcode =>
      subst h
      have hplain : code ≠ 0xff := by
        rintro rfl
        exact absurd hcode (by decide)
      rw [takeExt_cons, if_neg hplain, if_neg (by omega)]
    | @timestamp data seconds nanoseconds h htime hless =>
      subst h
      rw [takeExt_cons, if_pos rfl, timestampOf_eq_ok_iff.mpr htime]
      change (if 10 ^ 9 ≤ nanoseconds then _ else _) = _
      rw [if_neg (by omega)]

end Readers

/-! ## Heads -/

section Heads

variable {f : Form} {k : Nat → Unpacker Head} {n bound : Nat} {front rest : List UInt8}

/-- The bytes of a value that is no container, or of the head of a container. -/
def Head.Written : Head → List UInt8 → Prop
  | .value v => Plainly v
  | .list n => listForm.Writes n
  | .map n => mapForm.Writes n

/-- The reader goes on in the same way behind every number of the form. -/
structure Form.ReadBy (f : Form) (k : Nat → Unpacker Head) : Prop where
  single : ∀ p ∈ f.single, headOf p.1.toNat = k p.2
  spelled : ∀ p ∈ f.spelled, headOf p.1.toNat = counted p.2 k

theorem counted_append (k : Nat → Unpacker Head) (digits rest : List UInt8) :
    counted digits.length k (digits ++ rest) = k (ofBigEndian digits) rest := by
  unfold counted takeNat
  rw [takeBytes_append rfl]
  rfl

theorem Form.ReadBy.takeHead_append (h : f.ReadBy k) (hfront : f.Writes n front) :
    takeHead (front ++ rest) = k n rest := by
  cases hfront with
  | single hmem => exact congrFun (h.single _ hmem) rest
  | spelled hmem =>
    rw [List.cons_append, takeHead, h.spelled _ hmem, counted_append]

/-- The bytes that a form begins with. -/
def Form.heads (f : Form) : List UInt8 := (f.single ++ f.spelled).map Prod.fst

/-- A number of the form is read first, if the first byte is one of the form. -/
theorem Form.ReadBy.exists_of_takeHead (h : f.ReadBy k) {x : UInt8} {bytes : List UInt8}
    {r : Head × List UInt8} (hx : x ∈ f.heads) (hok : takeHead (x :: bytes) = .ok r) :
    ∃ n front rest, x :: bytes = front ++ rest ∧ f.Writes n front ∧ k n rest = .ok r := by
  obtain ⟨⟨y, m⟩, hmem, rfl⟩ := List.mem_map.mp hx
  rcases List.mem_append.mp hmem with hsingle | hspelled
  · rw [takeHead, h.single _ hsingle] at hok
    exact ⟨m, [y], bytes, rfl, .single hsingle, hok⟩
  · rw [takeHead, h.spelled _ hspelled] at hok
    obtain ⟨⟨number, more⟩, hnumber, hok⟩ := bind_eq_ok_iff.mp hok
    obtain ⟨digits, rfl, rfl, rfl⟩ := (reads_nat m bytes number more le_rfl).mp hnumber
    exact ⟨_, y :: digits, more, rfl, .spelled hspelled, hok⟩

/-! ### Forms -/

theorem mem_singles {first count : Nat} {p : UInt8 × Nat} :
    p ∈ singles first count ↔ p.2 < count ∧ p.1 = UInt8.ofNat (first + p.2) := by
  simp only [singles, List.mem_map, List.mem_range]
  constructor
  · rintro ⟨n, hn, rfl⟩
    exact ⟨hn, rfl⟩
  · rintro ⟨hn, hhead⟩
    exact ⟨p.2, hn, Prod.ext hhead.symm rfl⟩

theorem headOf_singles {first count : Nat} (hlast : first + count ≤ 256)
    (h : ∀ n < count, headOf (first + n) = k n) : ∀ p ∈ singles first count, headOf p.1.toNat = k p.2 := by
  intro p hp
  obtain ⟨hn, hhead⟩ := mem_singles.mp hp
  rw [hhead, Text.Utf8.toNat_ofNat_of_lt (by omega), h _ hn]

theorem naturalForm_readBy : naturalForm.ReadBy fun n => pureHead (.value (.int n)) where
  single := headOf_singles (k := fun n => pureHead (.value (.int n))) (by decide) fun n hn => by
    rw [Nat.zero_add, headOf_small hn]
  spelled := by
    simp only [naturalForm, List.forall_mem_cons]
    exact ⟨rfl, rfl, rfl, rfl, List.forall_mem_nil _⟩

theorem textForm_readBy : textForm.ReadBy fun n => asValue (takeText n) where
  single := headOf_singles (by decide) fun _ => headOf_smallText
  spelled := by
    simp only [textForm, List.forall_mem_cons]
    exact ⟨rfl, rfl, rfl, List.forall_mem_nil _⟩

theorem bytesForm_readBy : bytesForm.ReadBy headOf.bytesOf where
  single := List.forall_mem_nil _
  spelled := by
    simp only [bytesForm, List.forall_mem_cons]
    exact ⟨rfl, rfl, rfl, List.forall_mem_nil _⟩

theorem listForm_readBy : listForm.ReadBy fun n => pureHead (.list n) where
  single := headOf_singles (by decide) fun _ => headOf_smallList
  spelled := by
    simp only [listForm, List.forall_mem_cons]
    exact ⟨rfl, rfl, List.forall_mem_nil _⟩

theorem mapForm_readBy : mapForm.ReadBy fun n => pureHead (.map n) where
  single := headOf_singles (by decide) fun _ => headOf_smallMap
  spelled := by
    simp only [mapForm, List.forall_mem_cons]
    exact ⟨rfl, rfl, List.forall_mem_nil _⟩

theorem extForm_readBy : extForm.ReadBy fun n => asValue (takeExt n) where
  single := by
    simp only [extForm, List.forall_mem_cons]
    exact ⟨rfl, rfl, rfl, rfl, rfl, List.forall_mem_nil _⟩
  spelled := by
    simp only [extForm, List.forall_mem_cons]
    exact ⟨rfl, rfl, rfl, List.forall_mem_nil _⟩

theorem headOf_signed : ∀ p ∈ signedHeads,
    headOf p.1.toNat = counted p.2 fun n => pureHead (.value (.int (signed (8 * p.2) n))) := by
  simp only [signedHeads, List.forall_mem_cons]
  exact ⟨rfl, rfl, rfl, rfl, List.forall_mem_nil _⟩

theorem headOf_single :
    headOf (0xca : UInt8).toNat = counted 4 fun n => pureHead (.value (.float (Decimal.Binary.widen n))) := rfl

theorem headOf_double : headOf (0xcb : UInt8).toNat = counted 8 fun n => pureHead (.value (.float n)) := rfl

/-- A first byte with a number behind it that makes the whole value. -/
theorem exists_of_counted {x : UInt8} {bytes : List UInt8} {head : Head} {width : Nat} {g : Nat → Value}
    (hx : headOf x.toNat = counted width fun n => pureHead (.value (g n)))
    (h : takeHead (x :: bytes) = .ok (head, rest)) :
    ∃ digits, bytes = digits ++ rest ∧ digits.length = width ∧ head = .value (g (ofBigEndian digits)) := by
  rw [takeHead, hx] at h
  obtain ⟨⟨number, more⟩, hnumber, h⟩ := bind_eq_ok_iff.mp h
  obtain ⟨digits, rfl, hwidth, rfl⟩ := (reads_nat width bytes number more le_rfl).mp hnumber
  cases h
  exact ⟨digits, rfl, hwidth, rfl⟩

theorem takeHead_counted {x : UInt8} {digits : List UInt8} {g : Nat → Value}
    (hx : headOf x.toNat = counted digits.length fun n => pureHead (.value (g n))) :
    takeHead (x :: digits ++ rest) = .ok (.value (g (ofBigEndian digits)), rest) := by
  rw [List.cons_append, takeHead, hx, counted_append]
  rfl

theorem mem_heads_of_singles {first count : Nat} {x : UInt8} (hfirst : first ≤ x.toNat)
    (hlast : x.toNat < first + count) (h : f.single = singles first count) : x ∈ f.heads := by
  refine List.mem_map.mpr ⟨(x, x.toNat - first), ?_, rfl⟩
  rw [h, List.mem_append, mem_singles]
  refine .inl ⟨by simp; omega, ?_⟩
  rw [Nat.add_sub_cancel' hfirst, UInt8.ofNat_toNat]

def forms : List Form := [naturalForm, textForm, bytesForm, listForm, mapForm, extForm]

/-- Every byte but one is the first one of some value. -/
theorem exists_form (x : UInt8) :
    (∃ f ∈ forms, x ∈ f.heads) ∨ x ∈ signedHeads.map Prod.fst ∨ 0xe0 ≤ x.toNat ∨
      x ∈ [0xc0, 0xc2, 0xc3, 0xca, 0xcb] ∨ x = 0xc1 := by
  by_cases hnatural : x.toNat < 0x80
  · exact .inl ⟨naturalForm, by simp [forms], mem_heads_of_singles (Nat.zero_le _) (by omega) rfl⟩
  by_cases hmap : x.toNat < 0x90
  · exact .inl ⟨mapForm, by simp [forms], mem_heads_of_singles (by omega) hmap rfl⟩
  by_cases hlist : x.toNat < 0xa0
  · exact .inl ⟨listForm, by simp [forms], mem_heads_of_singles (by omega) hlist rfl⟩
  by_cases htext : x.toNat < 0xc0
  · exact .inl ⟨textForm, by simp [forms], mem_heads_of_singles (by omega) htext rfl⟩
  by_cases hnegative : 0xe0 ≤ x.toNat
  · exact .inr (.inr (.inl hnegative))
  -- The bytes between have one meaning each.
  have hbetween : ∀ n < 0x20, (∃ f ∈ forms, UInt8.ofNat (0xc0 + n) ∈ f.heads) ∨
      UInt8.ofNat (0xc0 + n) ∈ signedHeads.map Prod.fst ∨ 0xe0 ≤ (UInt8.ofNat (0xc0 + n)).toNat ∨
      UInt8.ofNat (0xc0 + n) ∈ [0xc0, 0xc2, 0xc3, 0xca, 0xcb] ∨ UInt8.ofNat (0xc0 + n) = 0xc1 := by
    decide +kernel
  have hx := hbetween (x.toNat - 0xc0) (by omega)
  rwa [Nat.add_sub_cancel' (by omega), UInt8.ofNat_toNat] at hx

theorem reads_bytesOf (n : Nat) :
    Reads bound (headOf.bytesOf n) fun head front => head = .value (.bytes front) ∧ front.length = n := by
  have h : Reads bound (headOf.bytesOf n) _ :=
    (reads_bytes n).bind fun b => reads_pure (Head.value (.bytes b))
  refine h.congr fun head front => ⟨?_, ?_⟩
  · rintro ⟨b, _, _, rfl, ⟨rfl, hlength⟩, rfl, rfl⟩
    rw [List.append_nil]
    exact ⟨rfl, hlength⟩
  · rintro ⟨rfl, hlength⟩
    exact ⟨front, front, [], (List.append_nil _).symm, ⟨rfl, hlength⟩, rfl, rfl⟩

theorem signed_byte {x : UInt8} (h : 0xe0 ≤ x.toNat) : signed 8 x.toNat = x.toNat - 0x100 := by
  simp only [signed, Nat.pow_eq]
  rw [if_neg (by omega)]
  rfl

/-- A head that is read has the bytes of one. -/
theorem written_of_form {x : UInt8} {bytes : List UInt8} {head : Head} (hf : f ∈ forms) (hx : x ∈ f.heads)
    (h : takeHead (x :: bytes) = .ok (head, rest)) :
    ∃ front, x :: bytes = front ++ rest ∧ head.Written front := by
  simp only [forms, List.mem_cons, List.not_mem_nil, or_false] at hf
  rcases hf with rfl | rfl | rfl | rfl | rfl | rfl
  · obtain ⟨n, front, more, heq, hfront, hrest⟩ := naturalForm_readBy.exists_of_takeHead hx h
    cases hrest
    exact ⟨front, heq, .natural hfront⟩
  · obtain ⟨n, front, more, heq, hfront, hrest⟩ := textForm_readBy.exists_of_takeHead hx h
    obtain ⟨back, rfl, v, rfl, s, rfl, rfl, rfl⟩ :=
      (reads_asValue (reads_text n) more head rest le_rfl).mp hrest
    exact ⟨front ++ Text.Utf8.encode s, by rw [heq, List.append_assoc], .text hfront⟩
  · obtain ⟨n, front, more, heq, hfront, hrest⟩ := bytesForm_readBy.exists_of_takeHead hx h
    obtain ⟨back, rfl, rfl, rfl⟩ := (reads_bytesOf n more head rest le_rfl).mp hrest
    exact ⟨front ++ back, by rw [heq, List.append_assoc], .bytes hfront⟩
  · obtain ⟨n, front, more, heq, hfront, hrest⟩ := listForm_readBy.exists_of_takeHead hx h
    cases hrest
    exact ⟨front, heq, hfront⟩
  · obtain ⟨n, front, more, heq, hfront, hrest⟩ := mapForm_readBy.exists_of_takeHead hx h
    cases hrest
    exact ⟨front, heq, hfront⟩
  · obtain ⟨n, front, more, heq, hfront, hrest⟩ := extForm_readBy.exists_of_takeHead hx h
    obtain ⟨back, rfl, v, rfl, hcoded⟩ := (reads_asValue (reads_ext n) more head rest le_rfl).mp hrest
    exact ⟨front ++ back, by rw [heq, List.append_assoc], .coded hfront hcoded⟩

theorem written_of_takeHead {bytes : List UInt8} {head : Head} (h : takeHead bytes = .ok (head, rest)) :
    ∃ front, bytes = front ++ rest ∧ head.Written front := by
  cases bytes with
  | nil => cases h
  | cons x bytes =>
    rcases exists_form x with ⟨f, hf, hx⟩ | hx | hx | hx | rfl
    · exact written_of_form hf hx h
    · obtain ⟨⟨y, width⟩, hmem, rfl⟩ := List.mem_map.mp hx
      obtain ⟨digits, rfl, rfl, rfl⟩ := exists_of_counted (headOf_signed _ hmem) h
      exact ⟨y :: digits, rfl, .signed hmem⟩
    · rw [takeHead, headOf_negative hx, signed_byte hx] at h
      cases h
      exact ⟨[x], rfl, .negative hx⟩
    · -- What is left is the three constants and the two floating-point numbers.
      simp only [List.mem_cons, List.not_mem_nil, or_false] at hx
      rcases hx with rfl | rfl | rfl | rfl | rfl
      · cases h
        exact ⟨[0xc0], rfl, .nil⟩
      · cases h
        exact ⟨[0xc2], rfl, .no⟩
      · cases h
        exact ⟨[0xc3], rfl, .yes⟩
      · obtain ⟨digits, rfl, hwidth, rfl⟩ := exists_of_counted headOf_single h
        exact ⟨0xca :: digits, rfl, .single hwidth⟩
      · obtain ⟨digits, rfl, hwidth, rfl⟩ := exists_of_counted headOf_double h
        exact ⟨0xcb :: digits, rfl, .double hwidth⟩
    · cases h

theorem takeHead_plainly {v : Value} (h : Plainly v front) :
    takeHead (front ++ rest) = .ok (.value v, rest) := by
  cases h with
  | nil => rfl
  | no => rfl
  | yes => rfl
  | natural h => exact naturalForm_readBy.takeHead_append h
  | @negative x h =>
    change headOf x.toNat rest = _
    rw [headOf_negative h, signed_byte h]
    rfl
  | signed h => exact takeHead_counted (headOf_signed _ h)
  | single h => exact takeHead_counted (h ▸ headOf_single)
  | double h => exact takeHead_counted (h ▸ headOf_double)
  | @text s front h =>
    rw [List.append_assoc, textForm_readBy.takeHead_append h]
    exact (reads_asValue (reads_text _) _ _ _ le_rfl).mpr ⟨_, rfl, _, rfl, s, rfl, rfl, rfl⟩
  | @bytes data front h =>
    rw [List.append_assoc, bytesForm_readBy.takeHead_append h]
    exact (reads_bytesOf _ _ _ _ le_rfl).mpr ⟨data, rfl, rfl, rfl⟩
  | coded h hback =>
    rw [List.append_assoc, extForm_readBy.takeHead_append h]
    exact (reads_asValue (reads_ext _) _ _ _ le_rfl).mpr ⟨_, rfl, _, rfl, hback⟩

end Heads

/-! ## Containers -/

section Containers

variable {bound n : Nat} {item : Unpacker Value} {inner : Value → List UInt8 → Prop}

theorem reads_items (h : Reads bound item inner) (n : Nat) :
    Reads bound (takeItems item n) fun items front =>
      ∃ parts, front = parts.flatten ∧ items.length = n ∧ List.Forall₂ inner items parts := by
  induction n with
  | zero =>
    refine (reads_pure []).congr fun items front => ⟨?_, ?_⟩
    · rintro ⟨rfl, rfl⟩
      exact ⟨[], rfl, rfl, .nil⟩
    · rintro ⟨parts, rfl, hlength, hparts⟩
      cases List.length_eq_zero_iff.mp hlength
      cases hparts
      exact ⟨rfl, rfl⟩
  | succ n ih =>
    -- The bytes split into those of the first item and those of the others, and nothing behind them.
    have hsucc : Reads bound (takeItems item (n + 1)) _ :=
      h.bind fun v => ih.bind fun vs => reads_pure (v :: vs)
    refine hsucc.congr fun items front => ⟨?_, ?_⟩
    · rintro ⟨v, front, _, rfl, hv, vs, _, _, rfl, ⟨parts, rfl, rfl, hparts⟩, rfl, rfl⟩
      exact ⟨front :: parts, by simp, rfl, .cons hv hparts⟩
    · rintro ⟨_, rfl, hlength, hparts⟩
      cases hparts with
      | nil => cases hlength
      | @cons v front vs parts hv hparts =>
        have hrest : vs.length = n := by simpa using hlength
        exact ⟨v, front, parts.flatten, by simp, hv, vs, parts.flatten, [], by simp,
          ⟨parts, rfl, hrest, hparts⟩, rfl, rfl⟩

theorem keyOf_eq_ok_iff {v : Value} {key : Key} : keyOf v = .ok key ↔ v = key.value := by
  cases v <;> cases key <;> simp [keyOf, Key.value]

theorem reads_entries (h : Reads bound item inner) (es : List (Key × Value)) (n : Nat) :
    Reads bound (takeEntries item es n) fun result front =>
      ∃ entries parts, front = parts.flatten ∧ entries.length = n ∧
        List.Forall₂ (Paired inner) entries parts ∧ result = Value.ofEntries es entries := by
  induction n generalizing es with
  | zero =>
    refine (reads_pure es).congr fun result front => ⟨?_, ?_⟩
    · rintro ⟨rfl, rfl⟩
      exact ⟨[], [], rfl, rfl, .nil, rfl⟩
    · rintro ⟨entries, parts, rfl, hlength, hparts, rfl⟩
      cases List.length_eq_zero_iff.mp hlength
      cases hparts
      exact ⟨rfl, rfl⟩
  | succ n ih =>
    -- The same, with the key, its value and the entries behind them, and a check of the key between.
    have hsucc : Reads bound (takeEntries item es (n + 1)) _ :=
      h.bind fun k => h.bind fun v => reads_checked (x := keyOf k) fun key => ih (Value.insert key v es)
    refine hsucc.congr fun result front => ⟨?_, ?_⟩
    · rintro ⟨k, front, _, rfl, hk, v, back, _, rfl, hv, key, hkey, entries, parts, rfl, rfl, hparts, rfl⟩
      rw [keyOf_eq_ok_iff] at hkey
      subst hkey
      exact ⟨(key, v) :: entries, (front ++ back) :: parts, by simp, rfl,
        .cons ⟨front, back, rfl, hk, hv⟩ hparts, rfl⟩
    · rintro ⟨_, _, rfl, hlength, hparts, rfl⟩
      cases hparts with
      | nil => cases hlength
      | @cons entry _ entries parts hentry hparts =>
        obtain ⟨front, back, rfl, hk, hv⟩ := hentry
        have hrest : entries.length = n := by simpa using hlength
        exact ⟨entry.1.value, front, back ++ parts.flatten, by simp, hk, entry.2, back, parts.flatten, rfl, hv,
          entry.1, keyOf_eq_ok_iff.mpr rfl, entries, parts, rfl, hrest, hparts, rfl⟩

/-! ### Sizes -/

theorem Form.Writes.ne_nil {f : Form} {front : List UInt8} (h : f.Writes n front) : front ≠ [] := by
  cases h <;> simp

theorem Plainly.ne_nil {v : Value} {bytes : List UInt8} (h : Plainly v bytes) : bytes ≠ [] := by
  cases h with
  | natural h => exact h.ne_nil
  | text h => simp [h.ne_nil]
  | bytes h => simp [h.ne_nil]
  | coded h => simp [h.ne_nil]
  | _ => simp

theorem Encoded.ne_nil {depth : Nat} {v : Value} {bytes : List UInt8} (h : Encoded depth v bytes) :
    bytes ≠ [] := by
  cases depth with
  | zero => exact Plainly.ne_nil h
  | succ depth =>
    cases h with
    | plain h => exact h.ne_nil
    | list h => simp [h.ne_nil]
    | map h => simp [h.ne_nil]

/-- Items take at least as many bytes as each of them takes. -/
theorem length_mul_le {α : Type} {format : α → List UInt8 → Prop} (size : Nat)
    (hsize : ∀ a part, format a part → size ≤ part.length) {items : List α} {parts : List (List UInt8)}
    (h : List.Forall₂ format items parts) : size * items.length ≤ parts.flatten.length := by
  induction h with
  | nil => simp
  | cons hfirst _ ih =>
    have := hsize _ _ hfirst
    simp only [List.length_cons, List.flatten_cons, List.length_append, Nat.mul_succ]
    omega

end Containers

/-! ## Values -/

variable {bound depth n : Nat} {v : Value} {bytes front rest : List UInt8}

theorem takeValue_plainly (h : Plainly v front) : takeValue bound depth (front ++ rest) = .ok (v, rest) := by
  cases depth <;> exact bind_eq_ok_iff.mpr ⟨(.value v, rest), takeHead_plainly h, rfl⟩

/-- A part that is read if its number is within a limit. -/
theorem limited_eq_ok_iff {α : Type} {limit : Nat} {fault : UnpackFault} {u : Unpacker α} {g : α → Value} :
    (if limit < n then .error fault else u front >>= fun r => .ok (g r.1, r.2)) =
        (.ok (v, rest) : Except UnpackFault (Value × List UInt8)) ↔
      n ≤ limit ∧ ∃ a, u front = .ok (a, rest) ∧ v = g a := by
  split
  case isTrue hlong =>
    constructor
    · intro h
      cases h
    · rintro ⟨hshort, -⟩
      omega
  case isFalse hshort =>
    rw [bind_eq_ok_iff]
    constructor
    · rintro ⟨⟨a, more⟩, ha, h⟩
      cases h
      exact ⟨by omega, a, ha, rfl⟩
    · rintro ⟨-, a, ha, rfl⟩
      exact ⟨(a, rest), ha, rfl⟩

theorem takeValue_list_iff (h : takeHead bytes = .ok (.list n, front)) :
    takeValue bound (depth + 1) bytes = .ok (v, rest) ↔
      n ≤ bound ∧ ∃ items, takeItems (takeValue bound depth) n front = .ok (items, rest) ∧ v = .list items := by
  change (takeHead bytes >>= _) = _ ↔ _
  rw [h]
  exact limited_eq_ok_iff

theorem takeValue_map_iff (h : takeHead bytes = .ok (.map n, front)) :
    takeValue bound (depth + 1) bytes = .ok (v, rest) ↔
      n ≤ bound / 2 ∧ ∃ es, takeEntries (takeValue bound depth) [] n front = .ok (es, rest) ∧ v = .map es := by
  change (takeHead bytes >>= _) = _ ↔ _
  rw [h]
  exact limited_eq_ok_iff

/-- Containers are read exactly from their bytes, if their items are. No container that is there is too
long: each item takes a byte at least, and each entry two. -/
theorem reads_composed (ih : Reads bound (takeValue bound depth) (Encoded depth)) :
    Reads bound (takeValue bound (depth + 1)) (Composed (Encoded depth)) := by
  intro bytes v rest hbytes
  constructor
  · intro h
    -- The head was read, so it has its bytes; what it says decides how the others are read.
    obtain ⟨⟨head, more⟩, hhead, -⟩ := bind_eq_ok_iff.mp h
    obtain ⟨front, rfl, hfront⟩ := written_of_takeHead hhead
    rw [List.length_append] at hbytes
    cases head with
    | value w =>
      rw [takeValue_plainly hfront] at h
      cases h
      exact ⟨front, rfl, .plain hfront⟩
    | list n =>
      obtain ⟨-, items, hitems, rfl⟩ := (takeValue_list_iff hhead).mp h
      obtain ⟨_, rfl, parts, rfl, rfl, hparts⟩ := (reads_items ih n more items rest (by omega)).mp hitems
      exact ⟨front ++ parts.flatten, (List.append_assoc ..).symm, .list hfront hparts⟩
    | map n =>
      obtain ⟨-, es, hes, rfl⟩ := (takeValue_map_iff hhead).mp h
      obtain ⟨_, rfl, entries, parts, rfl, rfl, hparts, rfl⟩ :=
        (reads_entries ih [] n more es rest (by omega)).mp hes
      exact ⟨front ++ parts.flatten, (List.append_assoc ..).symm, .map hfront hparts⟩
  · rintro ⟨_, rfl, h⟩
    cases h with
    | plain h => exact takeValue_plainly h
    | @list items parts front h hparts =>
      have hone (w : Value) (part : List UInt8) (hw : Encoded depth w part) : 1 ≤ part.length :=
        List.length_pos_iff.mpr hw.ne_nil
      have hcount := length_mul_le 1 hone hparts
      simp only [List.length_append] at hbytes
      rw [List.append_assoc]
      refine (takeValue_list_iff (listForm_readBy.takeHead_append h)).mpr ⟨by omega, items, ?_, rfl⟩
      refine (reads_items ih _ _ items rest ?_).mpr ⟨_, rfl, parts, rfl, rfl, hparts⟩
      rw [List.length_append]
      omega
    | @map entries parts front h hparts =>
      have htwo (e : Key × Value) (part : List UInt8) (he : Paired (Encoded depth) e part) : 2 ≤ part.length := by
        obtain ⟨front, back, rfl, hk, hv⟩ := he
        have := List.length_pos_iff.mpr hk.ne_nil
        have := List.length_pos_iff.mpr hv.ne_nil
        rw [List.length_append]
        omega
      have hcount := length_mul_le 2 htwo hparts
      simp only [List.length_append] at hbytes
      rw [List.append_assoc]
      refine (takeValue_map_iff (mapForm_readBy.takeHead_append h)).mpr ⟨by omega, _, ?_, rfl⟩
      refine (reads_entries ih [] _ _ _ rest ?_).mpr ⟨_, rfl, entries, parts, rfl, rfl, hparts, rfl⟩
      rw [List.length_append]
      omega

theorem reads_value (bound depth : Nat) : Reads bound (takeValue bound depth) (Encoded depth) := by
  induction depth with
  | zero =>
    intro bytes v rest _
    constructor
    · intro h
      obtain ⟨⟨head, more⟩, hhead, h⟩ := bind_eq_ok_iff.mp h
      obtain ⟨front, rfl, hfront⟩ := written_of_takeHead hhead
      cases head with
      | value w =>
        cases h
        exact ⟨front, rfl, hfront⟩
      | list n => cases h
      | map n => cases h
    · rintro ⟨front, rfl, h⟩
      exact takeValue_plainly h
  | succ depth ih => exact reads_composed ih

/-- A byte string is unpacked to a value exactly if it is the bytes of that value, all of them. -/
theorem unpack_eq_ok_iff : unpack bytes = .ok v ↔ Encoded nestingLimit v bytes := by
  unfold unpack
  rw [bind_eq_ok_iff]
  constructor
  · rintro ⟨⟨w, rest⟩, hvalue, h⟩
    obtain ⟨front, heq, hfront⟩ := (reads_value _ _ bytes w rest le_rfl).mp hvalue
    cases rest with
    | nil =>
      cases h
      rwa [heq, List.append_nil]
    | cons => cases h
  · intro h
    exact ⟨(v, []), (reads_value _ _ bytes v [] le_rfl).mpr ⟨bytes, (List.append_nil _).symm, h⟩, rfl⟩

end PackedSchema.Manifest
