import SafeVault.Lib.AsciiFold
import SafeVault.Lib.SeekStream

/-!
# The input of the decoder of 7z archives

An archive is in memory, or in volumes that are opened together and read as one. For each volume it is
noted where it ends in the whole; a read finds the volume in which the position is, sets the place in
its file, and stops where the volume ends.

Positions and sizes are unsigned words of 64 bits, the offset of a seek is a signed one. The stream is
compared with one whose positions are numbers.
-/

namespace SafeVault

namespace VolumeStream

structure Input where
  memory : Bytes
  memory_lt : memory.length < 2 ^ 64
  /-- The contents of the open files. -/
  files : List Bytes
  ends : List UInt64
  position : UInt64

/-- The loop of `open_files`; a path is `none` if its file cannot be opened. The size of a file is a
signed word of 64 bits. -/
def openFrom (total : UInt64) : List (Option Bytes) → Option (List Bytes × List UInt64)
  | [] => some ([], [])
  | path :: paths => do
    let file ← path
    guard (file.length < 2 ^ 63)
    let size := UInt64.ofNat file.length
    guard (size ≤ 0xFFFFFFFFFFFFFFFF - total)
    let (files, ends) ← openFrom (total + size) paths
    return (file :: files, (total + size) :: ends)

def openFiles (paths : List (Option Bytes)) : Option Input := do
  let (files, ends) ← openFrom 0 paths
  guard (!files.isEmpty)
  return { memory := [], memory_lt := by decide, files, ends, position := 0 }

namespace Input

variable (input : Input)

def size : UInt64 :=
  if input.files.isEmpty then .ofNat input.memory.length else input.ends.getLastD 0

/-- `std::min`. -/
def least (a b : UInt64) : UInt64 := if b < a then b else a

/-- What can go wrong in the file: its place is not set, or reading stops after some bytes. -/
inductive Fault where
  | none | seek | read (after : ℕ)

/-- `std::fread`, and whether it ended in an error. -/
def fread (fault : Fault) (file : Bytes) (offset count : ℕ) : Bytes × Bool :=
  match fault with
  | .read after => (((file.drop offset).take count).take after, true)
  | _ => ((file.drop offset).take count, false)

/-- What a call returns and writes to its parameters. -/
inductive Returned where
  | data (bytes : Bytes)
  | fail
  | at (newPosition : UInt64)
  | invalidArg

def read (fault : Fault) (amount : UInt32) : Returned × Input :=
  if amount = 0 ∨ input.size ≤ input.position then (.data [], input)
  else
    let count := least amount.toUInt64 (input.size - input.position)
    if input.files.isEmpty then
      (.data ((input.memory.drop input.position.toNat).take count.toNat),
        { input with position := input.position + count })
    else
      let index := input.ends.findIdx (input.position < ·)
      let start := if index = 0 then 0 else input.ends.getD (index - 1) 0
      let count := least count (input.ends.getD index 0 - input.position)
      match fault with
      | .seek => (.fail, input)
      | _ =>
        let (bytes, error) :=
          fread fault (input.files.getD index []) (input.position - start).toNat count.toNat
        if bytes.length = 0 ∧ error then (.fail, input)
        else (.data bytes, { input with position := input.position + .ofNat bytes.length })

def seek (offset : Int64) (origin : UInt32) : Returned × Input :=
  if 2 < origin then (.invalidArg, input)
  else
    let base := if origin = 1 then input.position else if origin = 2 then input.size else 0
    let magnitude := if offset < 0 then 0 - offset.toUInt64 else offset.toUInt64
    if offset < 0 ∧ base < magnitude ∨ 0 ≤ offset ∧ 0xFFFFFFFFFFFFFFFF - base < magnitude then
      (.invalidArg, input)
    else
      let position := if offset < 0 then base - magnitude else base + magnitude
      (.at position, { input with position })

/-- A call with its parameters. -/
inductive Call where
  | read (fault : Fault) (amount : UInt32)
  | seek (offset : Int64) (origin : UInt32)

def call : Call → Returned × Input
  | .read fault amount => input.read fault amount
  | .seek offset origin => input.seek offset origin

/-- A sequence of calls, each with what it returns, and the input after it. -/
def calls (input : Input) : List Call → List (Call × Returned) × Input
  | [] => ([], input)
  | c :: cs =>
    let (returned, next) := input.call c
    let (trace, last) := calls next cs
    ((c, returned) :: trace, last)

/-! ## The stream it is -/

/-- What is read. -/
def contents : Bytes := if input.files.isEmpty then input.memory else input.files.flatten

/-- The ends are those of the files, and they are words. -/
structure Valid : Prop where
  ends : input.ends.map UInt64.toNat = SeekStream.endsFrom 0 (input.files.map List.length)
  size : input.files.flatten.length < 2 ^ 64

def Call.request : Call → SeekStream.Request
  | .read _ amount => .read amount.toNat
  | .seek offset origin => .seek offset.toInt origin.toNat

def Returned.answer : Returned → SeekStream.Answer UInt8
  | .data bytes => .data bytes
  | .fail => .failed
  | .at newPosition => .at newPosition.toNat
  | .invalidArg => .refused

variable {input}

theorem contents_lt (h : input.Valid) : input.contents.length < 2 ^ 64 := by
  rw [contents]
  split_ifs
  · exact input.memory_lt
  · exact h.size

theorem toNat_size (h : input.Valid) : input.size.toNat = input.contents.length := by
  rw [size, contents]
  split_ifs with hfiles
  · exact UInt64.toNat_ofNat_of_lt' input.memory_lt
  · have hlast := SeekStream.getLastD_endsFrom input.files 0
    rw [← h.ends, Nat.zero_add, List.getLastD_eq_getLast?, List.getLast?_map] at hlast
    rw [← hlast, List.getLastD_eq_getLast?]
    cases input.ends.getLast? <;> rfl

/-- The position moves behind what is read. -/
theorem toNat_position_add (h : input.Valid) {n : ℕ} (hn : input.position.toNat + n ≤ input.contents.length) :
    (input.position + UInt64.ofNat n).toNat = input.position.toNat + n := by
  have hlt := contents_lt h
  rw [UInt64.toNat_add, UInt64.toNat_ofNat_of_lt' (show n < 2 ^ 64 by omega), Nat.mod_eq_of_lt (by omega)]

/-- A read of the first bytes of what follows the position. -/
theorem step_take {contents part rest : Bytes} {limit p amount n : ℕ} (hrest : contents.drop p = part ++ rest)
    (hn : n ≤ amount) (hlast : part.take n = [] → amount = 0 ∨ contents.length ≤ p) :
    SeekStream.Step contents limit p (.read amount) (.data (part.take n)) (p + (part.take n).length) := by
  have hbytes : contents.drop p = part.take n ++ (part.drop n ++ rest) := by
    rw [hrest, ← List.append_assoc, List.take_append_drop]
  exact .read hbytes ((List.length_take_le n part).trans hn) hlast

theorem toNat_least (a b : UInt64) : (least a b).toNat = min a.toNat b.toNat := by
  rw [least]
  split_ifs with h
  · exact (Nat.min_eq_right (Nat.le_of_lt (UInt64.lt_iff_toNat_lt.mp h))).symm
  · exact (Nat.min_eq_left (Nat.le_of_not_lt fun hlt ↦ h (UInt64.lt_iff_toNat_lt.mpr hlt))).symm

/-- The part of the contents that a read is about. -/
theorem exists_part (h : input.Valid) (hfiles : input.files.isEmpty = false)
    (hp : input.position.toNat < input.contents.length) :
    let index := input.ends.findIdx (input.position < ·)
    let start := if index = 0 then 0 else input.ends.getD (index - 1) 0
    ∃ part rest, input.files.getD index [] = part ∧
      (input.ends.getD index 0).toNat = start.toNat + part.length ∧ start.toNat ≤ input.position.toNat ∧
      input.position.toNat < start.toNat + part.length ∧
      input.contents.drop input.position.toNat = part.drop (input.position.toNat - start.toNat) ++ rest := by
  intro index start
  have hcontents : input.contents = input.files.flatten := by rw [contents, hfiles]; rfl
  have hindex : (input.ends.map UInt64.toNat).findIdx (input.position.toNat < ·) = index := by
    rw [List.findIdx_map]
    exact congrArg (input.ends.findIdx ·) (funext fun e ↦ decide_eq_decide.mpr UInt64.lt_iff_toNat_lt.symm)
  have hbegin : SeekStream.beginOf 0 (input.ends.map UInt64.toNat) index = start.toNat := by
    rw [SeekStream.beginOf]
    simp only [start]
    split_ifs
    · rfl
    · rw [List.getD_eq_getElem?_getD, List.getElem?_map, List.getD_eq_getElem?_getD]
      cases input.ends[index - 1]? <;> rfl
  have hlocate := SeekStream.locate (Nat.zero_le input.position.toNat)
    (hcontents ▸ hp |>.trans_eq (Nat.zero_add _).symm)
  rw [← h.ends] at hlocate
  dsimp only at hlocate
  rw [hindex] at hlocate
  obtain ⟨part, stop, rest, hpart, hstop, hlength, hle, hlt, hrest⟩ := hlocate
  rw [hbegin] at hlength hle hrest
  refine ⟨part, rest, ?_, ?_, hle, hlength ▸ hlt, by rw [hcontents]; exact hrest⟩
  · rw [List.getD_eq_getElem?_getD, hpart]
    rfl
  · rw [List.getElem?_map] at hstop
    obtain ⟨e, he, rfl⟩ := Option.map_eq_some_iff.mp hstop
    rw [List.getD_eq_getElem?_getD, he]
    exact hlength.symm

theorem read_step (h : input.Valid) (fault : Fault) (amount : UInt32) :
    SeekStream.Step input.contents (2 ^ 64 - 1) input.position.toNat (.read amount.toNat)
      (input.read fault amount).1.answer (input.read fault amount).2.position.toNat := by
  have hsize := toNat_size h
  rw [read]
  by_cases hnone : amount = 0 ∨ input.size ≤ input.position
  · rw [if_pos hnone]
    have hstep := @step_take input.contents [] (input.contents.drop input.position.toNat) (2 ^ 64 - 1)
      input.position.toNat amount.toNat 0 rfl (Nat.zero_le _)
    rw [UInt64.le_iff_toNat_le, hsize] at hnone
    exact hstep fun _ ↦ hnone.imp (fun h ↦ by rw [h]; rfl) id
  rw [if_neg hnone]
  rw [not_or, UInt64.not_le, UInt64.lt_iff_toNat_lt, hsize] at hnone
  obtain ⟨hamount, hp⟩ := hnone
  have hpos : 0 < amount.toNat := Nat.pos_of_ne_zero fun h ↦ hamount (UInt32.toNat_inj.mp h)
  have hleft : (input.size - input.position).toNat = input.contents.length - input.position.toNat := by
    rw [UInt64.toNat_sub_of_le _ _ (UInt64.le_iff_toNat_le.mpr (by omega)), hsize]
  have hcount : (least amount.toUInt64 (input.size - input.position)).toNat =
      min amount.toNat (input.contents.length - input.position.toNat) := by
    rw [toNat_least, hleft, UInt32.toNat_toUInt64]
  generalize least amount.toUInt64 (input.size - input.position) = count at hcount ⊢
  cases hfiles : input.files.isEmpty with
  | true =>
    have hcontents : input.contents = input.memory := by rw [contents, hfiles]; rfl
    have hlength : ((input.memory.drop input.position.toNat).take count.toNat).length = count.toNat := by
      rw [List.length_take, List.length_drop, ← hcontents]
      omega
    have hmove := toNat_position_add h (n := count.toNat) (by omega)
    rw [UInt64.ofNat_toNat] at hmove
    have hstep := @step_take input.contents (input.memory.drop input.position.toNat) [] (2 ^ 64 - 1)
      input.position.toNat amount.toNat count.toNat (by rw [hcontents, List.append_nil]) (by omega)
    rw [hlength, ← hmove] at hstep
    refine hstep fun hnil ↦ ?_
    rw [List.eq_nil_iff_length_eq_zero, hlength] at hnil
    omega
  | false =>
    obtain ⟨part, rest, hpart, hend, hle, hlt, hrest⟩ := exists_part h hfiles hp
    simp only [Bool.false_eq_true, if_false, hpart]
    generalize (if input.ends.findIdx (input.position < ·) = 0 then 0
      else input.ends.getD (input.ends.findIdx (input.position < ·) - 1) 0) = start at hend hle hlt hrest ⊢
    generalize input.ends.getD (input.ends.findIdx (input.position < ·)) 0 = stop at hend ⊢
    have hoffset : (input.position - start).toNat = input.position.toNat - start.toNat :=
      UInt64.toNat_sub_of_le _ _ (UInt64.le_iff_toNat_le.mpr hle)
    have hroom : (least count (stop - input.position)).toNat =
        min count.toNat (start.toNat + part.length - input.position.toNat) := by
      rw [toNat_least, UInt64.toNat_sub_of_le _ _ (UInt64.le_iff_toNat_le.mpr (by omega)), hend]
    generalize least count (stop - input.position) = count' at hroom ⊢
    rw [hoffset]
    -- Whatever has been read of the part, if it is anything, is a read of the whole.
    have hdata : ∀ n ≤ count'.toNat,
        ((part.drop (input.position.toNat - start.toNat)).take n).length = n ∧
        (0 < n → SeekStream.Step input.contents (2 ^ 64 - 1) input.position.toNat (.read amount.toNat)
          (.data ((part.drop (input.position.toNat - start.toNat)).take n))
          (input.position + UInt64.ofNat n).toNat) := by
      intro n hn
      have hlength : ((part.drop (input.position.toNat - start.toNat)).take n).length = n := by
        rw [List.length_take, List.length_drop]
        omega
      refine ⟨hlength, fun hpos ↦ ?_⟩
      have hstep := @step_take input.contents _ rest (2 ^ 64 - 1) input.position.toNat amount.toNat n hrest
        (by omega)
      rw [hlength, ← toNat_position_add h (by omega)] at hstep
      refine hstep fun hnil ↦ ?_
      rw [List.eq_nil_iff_length_eq_zero, hlength] at hnil
      omega
    cases fault with
    | seek => exact .failed
    | none =>
      obtain ⟨hlength, hstep⟩ := hdata count'.toNat le_rfl
      simp only [fread, hlength, Bool.false_eq_true, and_false, if_false]
      exact hstep (by omega)
    | read after =>
      obtain ⟨hlength, hstep⟩ := hdata (min after count'.toNat) (Nat.min_le_right _ _)
      simp only [fread, List.take_take, hlength, and_true]
      split_ifs with hzero
      · exact .failed
      · exact hstep (Nat.pos_of_ne_zero hzero)

theorem toInt_eq (offset : Int64) : offset.toInt =
    if 2 * offset.toUInt64.toNat < 2 ^ 64 then (offset.toUInt64.toNat : ℤ)
    else offset.toUInt64.toNat - 2 ^ 64 :=
  BitVec.toInt_eq_toNat_cond offset.toBitVec

theorem seek_step (h : input.Valid) (offset : Int64) (origin : UInt32) :
    SeekStream.Step input.contents (2 ^ 64 - 1) input.position.toNat (.seek offset.toInt origin.toNat)
      (input.seek offset origin).1.answer (input.seek offset origin).2.position.toNat := by
  have hsize := toNat_size h
  rw [seek]
  by_cases horigin : 2 < origin
  · rw [if_pos horigin]
    exact .refused (.inl (UInt32.lt_iff_toNat_lt.mp horigin))
  rw [if_neg horigin]
  have hone : origin = 1 ↔ origin.toNat = 1 := UInt32.toNat_inj.symm
  have htwo : origin = 2 ↔ origin.toNat = 2 := UInt32.toNat_inj.symm
  have hbase : SeekStream.target input.contents.length input.position.toNat offset.toInt origin.toNat =
      (if origin = 1 then input.position else if origin = 2 then input.size else 0).toNat + offset.toInt := by
    rw [SeekStream.target]
    simp only [hone, htwo]
    split_ifs
    · rfl
    · rw [hsize]
    · rfl
  generalize (if origin = 1 then input.position else if origin = 2 then input.size else 0) = base at hbase ⊢
  have horigin' : origin.toNat ≤ 2 := Nat.le_of_not_lt fun hlt ↦ horigin (UInt32.lt_iff_toNat_lt.mpr hlt)
  have hlt := base.toNat_lt
  have hoffset := toInt_eq offset
  have hword := offset.toUInt64.toNat_lt
  have hmax : (0xFFFFFFFFFFFFFFFF - base).toNat = 2 ^ 64 - 1 - base.toNat :=
    UInt64.toNat_sub_of_le _ _ (UInt64.le_iff_toNat_le.mpr (Nat.le_of_lt_succ hlt))
  have hnegative : offset < 0 ↔ offset.toInt < 0 := Int64.lt_iff_toInt_lt
  have hpositive : 0 ≤ offset ↔ 0 ≤ offset.toInt := Int64.le_iff_toInt_le
  simp only [hnegative, hpositive]
  by_cases hneg : offset.toInt < 0
  · have hmagnitude : ((0 - offset.toUInt64).toNat : ℤ) = -offset.toInt := by
      rw [UInt64.toNat_sub]
      change (((2 ^ 64 - offset.toUInt64.toNat + 0) % 2 ^ 64 : ℕ) : ℤ) = _
      split_ifs at hoffset <;> omega
    simp only [hneg, if_true, true_and, not_le.mpr hneg, false_and, or_false]
    split_ifs with hbefore
    · rw [UInt64.lt_iff_toNat_lt] at hbefore
      exact .refused (.inr (.inl (by omega)))
    · rw [UInt64.not_lt] at hbefore
      have hsub := UInt64.toNat_sub_of_le _ _ hbefore
      rw [UInt64.le_iff_toNat_le] at hbefore
      exact .seek horigin' (Nat.le_of_lt_succ (UInt64.toNat_lt _)) (by omega)
  · have hmagnitude : (offset.toUInt64.toNat : ℤ) = offset.toInt := by
      split_ifs at hoffset <;> omega
    simp only [hneg, if_false, false_and, false_or, not_lt.mp hneg, true_and]
    split_ifs with hbehind
    · rw [UInt64.lt_iff_toNat_lt, hmax] at hbehind
      exact .refused (.inr (.inr (by omega)))
    · rw [UInt64.lt_iff_toNat_lt, hmax] at hbehind
      have hadd : (base + offset.toUInt64).toNat = base.toNat + offset.toUInt64.toNat := by
        rw [UInt64.toNat_add, Nat.mod_eq_of_lt (by omega)]
      exact .seek horigin' (Nat.le_of_lt_succ (UInt64.toNat_lt _)) (by omega)

/-! ## Runs -/

/-- A call moves the position only. -/
theorem call_frame (input : Input) (c : Call) : (input.call c).2.contents = input.contents ∧
    (input.Valid → (input.call c).2.Valid) := by
  have hmoved : ∀ position, ({ input with position } : Input).contents = input.contents ∧
      (input.Valid → ({ input with position } : Input).Valid) := fun position ↦ ⟨rfl, fun h ↦ ⟨h.ends, h.size⟩⟩
  have hsame := hmoved input.position
  cases c with
  | read fault amount =>
    rw [call, read]
    split
    · exact hsame
    dsimp only
    split
    · exact hmoved _
    split
    · exact hsame
    · generalize fread _ _ _ _ = got
      split
      · exact hsame
      · exact hmoved _
  | seek offset origin =>
    simp only [call, seek]
    split_ifs
    · exact hsame
    · exact hsame
    all_goals exact hmoved _

theorem call_step (h : input.Valid) (c : Call) :
    SeekStream.Step input.contents (2 ^ 64 - 1) input.position.toNat c.request (input.call c).1.answer
      (input.call c).2.position.toNat := by
  cases c with
  | read fault amount => exact read_step h fault amount
  | seek offset origin => exact seek_step h offset origin

/-- A sequence of calls is a run of the stream. -/
theorem calls_run (h : input.Valid) (cs : List Call) :
    SeekStream.Run input.contents (2 ^ 64 - 1) input.position.toNat
      ((input.calls cs).1.map fun (c, returned) ↦ (c.request, returned.answer))
      (input.calls cs).2.position.toNat := by
  induction cs generalizing input with
  | nil => exact .nil
  | cons c cs ih =>
    obtain ⟨hcontents, hvalid⟩ := call_frame input c
    have hrest := ih (hvalid h)
    rw [hcontents] at hrest
    exact .cons (call_step h c) hrest

/-- A read fails only where the file does. -/
theorem fault_of_fail {c : Call} (h : (input.call c).1 = .fail) :
    ∃ fault amount, c = .read fault amount ∧ fault ≠ .none := by
  cases c with
  | read fault amount =>
    refine ⟨fault, amount, rfl, ?_⟩
    rintro rfl
    simp only [call, read, fread, Bool.false_eq_true, and_false, if_false] at h
    split_ifs at h
  | seek offset origin =>
    simp only [call, seek] at h
    split_ifs at h

theorem fault_of_mem_calls {c : Call} {cs : List Call} (h : (c, Returned.fail) ∈ (input.calls cs).1) :
    ∃ fault amount, c = .read fault amount ∧ fault ≠ .none := by
  induction cs generalizing input with
  | nil => exact absurd h List.not_mem_nil
  | cons c' cs ih =>
    rcases List.mem_cons.mp h with heq | h
    · obtain ⟨rfl, hfail⟩ := Prod.mk.inj heq
      exact fault_of_fail hfail.symm
    · exact ih h

end Input

open SeekStream in
/-- Which files can be opened together. -/
theorem openFrom_iff {total : UInt64} {paths : List (Option Bytes)} {files : List Bytes} {ends : List UInt64}
    : openFrom total paths = some (files, ends) ↔ paths = files.map some ∧
      (∀ file ∈ files, file.length < 2 ^ 63) ∧ total.toNat + files.flatten.length < 2 ^ 64 ∧
      ends.map UInt64.toNat = endsFrom total.toNat (files.map List.length) := by
  induction paths generalizing total files ends with
  | nil =>
    constructor
    · intro h
      obtain ⟨rfl, rfl⟩ := Prod.mk.inj (Option.some.inj h)
      exact ⟨rfl, fun f hf ↦ absurd hf List.not_mem_nil, total.toNat_lt, rfl⟩
    · rintro ⟨hfiles, -, -, hends⟩
      obtain rfl := List.map_eq_nil_iff.mp hfiles.symm
      obtain rfl := List.map_eq_nil_iff.mp hends
      rfl
  | cons path paths ih =>
    have htotal := total.toNat_lt
    have hroom : (0xFFFFFFFFFFFFFFFF - total).toNat = 2 ^ 64 - 1 - total.toNat :=
      UInt64.toNat_sub_of_le _ _ (UInt64.le_iff_toNat_le.mpr (Nat.le_of_lt_succ htotal))
    -- The size of a file that fits is added without overflow.
    have hadd : ∀ {file : Bytes}, file.length < 2 ^ 63 →
        (UInt64.ofNat file.length ≤ 0xFFFFFFFFFFFFFFFF - total ↔ total.toNat + file.length < 2 ^ 64) ∧
        (total.toNat + file.length < 2 ^ 64 →
          (total + UInt64.ofNat file.length).toNat = total.toNat + file.length) := by
      intro file hfile
      have hsize : (UInt64.ofNat file.length).toNat = file.length :=
        UInt64.toNat_ofNat_of_lt' (Nat.lt_trans hfile (by decide))
      refine ⟨?_, fun hlt ↦ ?_⟩
      · rw [UInt64.le_iff_toNat_le, hroom, hsize]
        omega
      · rw [UInt64.toNat_add, hsize, Nat.mod_eq_of_lt hlt]
    simp only [openFrom, Option.bind_eq_bind, Option.bind_eq_some_iff, Option.guard_eq_some']
    constructor
    · rintro ⟨file, rfl, -, hfile, -, hfits, ⟨files', ends'⟩, hrest, heq⟩
      obtain ⟨rfl, rfl⟩ := Prod.mk.inj (Option.some.inj heq)
      obtain ⟨hsmall, hsum⟩ := hadd hfile
      have hnext := hsum (hsmall.mp hfits)
      obtain ⟨rfl, hfiles, hlt, hends⟩ := ih.mp hrest
      rw [hnext] at hlt hends
      refine ⟨rfl, List.forall_mem_cons.mpr ⟨hfile, hfiles⟩, ?_, ?_⟩
      · dsimp only at hlt ⊢
        rw [List.flatten_cons, List.length_append]
        omega
      · rw [List.map_cons, List.map_cons, endsFrom, hnext, hends]
    · rintro ⟨hpaths, hfiles, hlt, hends⟩
      rcases files with _ | ⟨file, files⟩
      · exact absurd hpaths (List.cons_ne_nil _ _)
      · obtain ⟨rfl, rfl⟩ := List.cons.inj hpaths
        obtain ⟨hfile, hfiles⟩ := List.forall_mem_cons.mp hfiles
        rw [List.flatten_cons, List.length_append] at hlt
        obtain ⟨hsmall, hsum⟩ := hadd hfile
        have hnext := hsum (by omega)
        rcases ends with _ | ⟨stop, ends⟩
        · exact absurd hends.symm (List.cons_ne_nil _ _)
        · obtain ⟨hstop, hrest⟩ := List.cons.inj hends
          rw [← hnext] at hstop hrest
          obtain rfl := UInt64.toNat_inj.mp hstop
          exact ⟨file, rfl, (), hfile, (), hsmall.mpr (by omega), (files, ends),
            ih.mpr ⟨rfl, hfiles, by omega, hrest⟩, rfl⟩

/-- Ends that are words can be noted as words. -/
theorem exists_ends {files : List Bytes} {start : ℕ} (h : start + files.flatten.length < 2 ^ 64) :
    ∃ ends : List UInt64, ends.map UInt64.toNat = SeekStream.endsFrom start (files.map List.length) := by
  induction files generalizing start with
  | nil => exact ⟨[], rfl⟩
  | cons file files ih =>
    rw [List.flatten_cons, List.length_append] at h
    obtain ⟨ends, hends⟩ := @ih (start + file.length) (by omega)
    refine ⟨.ofNat (start + file.length) :: ends, ?_⟩
    rw [List.map_cons, hends, UInt64.toNat_ofNat_of_lt' (show _ < 2 ^ 64 by omega)]
    rfl

/-- **Volumes are one stream**: files that can be opened together are read as their concatenation by every
sequence of calls, with positions that are those of an unbounded stream, and no read fails unless a file
does. Volumes cannot be opened together if there are none, if one of them cannot be opened, or if a size
or their sum is too large for a word. -/
theorem volumes_stream (paths : List (Option Bytes)) :
    ((openFiles paths).isSome ↔ ∃ files : List Bytes, files ≠ [] ∧ paths = files.map some ∧
      (∀ file ∈ files, file.length < 2 ^ 63) ∧ files.flatten.length < 2 ^ 64) ∧
    ∀ input, openFiles paths = some input → ∀ cs : List Input.Call,
      SeekStream.Run (paths.reduceOption.flatten) (2 ^ 64 - 1) 0
        ((input.calls cs).1.map fun (c, returned) ↦ (c.request, returned.answer))
        (input.calls cs).2.position.toNat ∧
      ∀ c, (c, Input.Returned.fail) ∈ (input.calls cs).1 →
        ∃ fault amount, c = .read fault amount ∧ fault ≠ .none := by
  have hopen : ∀ input, openFiles paths = some input ↔ ∃ files ends, openFrom 0 paths = some (files, ends) ∧
      files ≠ [] ∧ input = { memory := [], memory_lt := by decide, files, ends, position := 0 } := by
    intro input
    simp only [openFiles, Option.bind_eq_bind, Option.bind_eq_some_iff, Option.guard_eq_some', Prod.exists,
      Bool.not_eq_true', List.isEmpty_eq_false_iff]
    constructor
    · rintro ⟨files, ends, hfrom, -, hne, heq⟩
      exact ⟨files, ends, hfrom, hne, (Option.some.inj heq).symm⟩
    · rintro ⟨files, ends, hfrom, hne, rfl⟩
      exact ⟨files, ends, hfrom, (), hne, rfl⟩
  constructor
  · rw [Option.isSome_iff_exists]
    constructor
    · rintro ⟨input, h⟩
      obtain ⟨files, ends, hfrom, hne, -⟩ := (hopen input).mp h
      obtain ⟨hpaths, hfiles, hlt, -⟩ := openFrom_iff.mp hfrom
      exact ⟨files, hne, hpaths, hfiles, by rwa [UInt64.toNat_zero, Nat.zero_add] at hlt⟩
    · rintro ⟨files, hne, hpaths, hfiles, hlt⟩
      obtain ⟨ends, hends⟩ := exists_ends ((Nat.zero_add _).trans_lt hlt)
      exact ⟨_, (hopen _).mpr ⟨files, ends, openFrom_iff.mpr
        ⟨hpaths, hfiles, (Nat.zero_add _).trans_lt hlt, hends⟩, hne, rfl⟩⟩
  · intro input h cs
    obtain ⟨files, ends, hfrom, hne, rfl⟩ := (hopen input).mp h
    obtain ⟨rfl, -, hlt, hends⟩ := openFrom_iff.mp hfrom
    rw [UInt64.toNat_zero] at hlt hends
    have hrun := @Input.calls_run { memory := [], memory_lt := by decide, files, ends, position := 0 }
      ⟨hends, by rwa [Nat.zero_add] at hlt⟩ cs
    have hcontents : Input.contents { memory := [], memory_lt := by decide, files, ends, position := 0 } =
        (files.map some).reduceOption.flatten := by
      have hsome : (files.map some).reduceOption = files := by
        show (files.map some).filterMap id = files
        rw [List.filterMap_map, Function.id_comp, List.filterMap_some]
      rw [Input.contents, if_neg (by simpa using hne), hsome]
    exact ⟨hcontents ▸ hrun, fun c ↦ Input.fault_of_mem_calls⟩

theorem volumes_stream_empty_volume :
    SeekStream.Run ([1, 2, 3, 4, 5] : Bytes) (2 ^ 64 - 1) 0
      [(.seek 1 0, .at 1), (.read 10, .data [2]), (.read 10, .data [3, 4, 5]), (.read 1, .data []),
        (.seek (-6) 2, .refused)] 5 := by
  have hopen : openFiles [some [1, 2], some [], some [3, 4, 5]] =
      some ⟨[], by decide, [[1, 2], [], [3, 4, 5]], [2, 2, 5], 0⟩ := rfl
  obtain ⟨hrun, -⟩ := (volumes_stream [some [1, 2], some [], some [3, 4, 5]]).2 _ hopen
    [.seek 1 0, .read .none 10, .read .none 10, .read .none 1, .seek (-6) 2]
  exact hrun

end VolumeStream

end SafeVault
