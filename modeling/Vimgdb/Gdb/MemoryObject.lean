import Vimgdb.Gdb.Parser
import Vimgdb.Lib.Runs

/-!
# The memory of a segment

A `gdb_memory_t` is the reply with which it has been acquired, and each update replaces its content by
that of another reply.  The length stays.

* `Reply`, `Reply.memory`: a reply to `data-read-memory-bytes`, and what the parser makes of it.
* `MemoryObject`, `MemoryObject.update`: the object and its update.
* `Covers`: a content has two digits for each of some bytes.
* `run_covers_iff`: the runs in which the content covers the segment, and a range of the peripherals.
-/

namespace Vimgdb.Gdb

open Runs

/-! ## Replies -/

/-- A reply to `data-read-memory-bytes`, with its addresses as they are written. -/
structure Reply where
  begin : CStr
  end_ : CStr
  contents : CStr

/-- The number an address stands for. -/
def addrValue (s : CStr) : Nat := readDigits 16 0 (skipHexMarker s)

/-- The bytes from the first address to the second. -/
def Reply.bytes (r : Reply) : Nat := addrValue r.end_ - addrValue r.begin

/-- An address is a hexadecimal number with its marker. -/
def IsAddr (s : CStr) : Prop := ∃ ds, s = '0' :: 'x' :: ds

/-- The contents are two digits for each byte from one address to the other. -/
structure Reply.WellFormed (r : Reply) : Prop where
  begin : IsAddr r.begin
  end_ : IsAddr r.end_
  le : addrValue r.begin ≤ addrValue r.end_
  length : r.contents.length = 2 * r.bytes
  digits : ∀ c ∈ r.contents, (digitValue 16 c).isSome

/-- What `memory-body` makes of it. -/
def Reply.memory (r : Reply) : Memory where
  begin := some r.begin
  content := some r.contents
  length := (strtollHex r.end_ - strtollHex r.begin).truncate 32

/-- `="…"` -/
def stringTokens (s : CStr) : List Tok :=
  .chr '=' :: if s = [] then [.chr '"', .chr '"'] else [.chr '"', .string s, .chr '"']

/-- The tokens of a reply, with the offset between the addresses. -/
def Reply.tokens (r : Reply) (offset : CStr) : List Tok :=
  .var .begin :: stringTokens r.begin ++ .chr ',' :: .var .offset :: stringTokens offset ++
    .chr ',' :: .var .end_ :: stringTokens r.end_ ++ .chr ',' :: .var .contents ::
    stringTokens r.contents ++ [.chr '}']

theorem memoryBody_tokens (r : Reply) (offset : CStr) :
    memoryBody (r.tokens offset) = .accepted (r.memory, [.chr '}']) := by
  obtain ⟨begin, end_, contents⟩ := r
  unfold Reply.tokens stringTokens
  dsimp only
  split_ifs <;> subst_vars <;> rfl

/-! ## The object -/

/-- `gdb_memory_t` -/
structure MemoryObject where
  begin : Option CStr
  content : Option CStr
  contentOld : Option CStr := none
  length : BitVec 32

/-- `acquire` hands out what the parser has made. -/
def MemoryObject.ofReply (m : Memory) : MemoryObject where
  begin := m.begin
  content := m.content
  length := m.length

/-- `update`: what else is in the reply is deleted.  Without a reply nothing changes. -/
def MemoryObject.update (mem : MemoryObject) (reply : Option Memory) : MemoryObject :=
  match reply with
  | none => mem
  | some m => { mem with contentOld := mem.content, content := m.content }

/-- The digits of a content; a null pointer has none. -/
def digitCount (content : Option CStr) : Nat := (content.getD []).length

/-- The content has two digits for each of so many bytes. -/
def Covers (n : BitVec 32) (content : Option CStr) : Prop := 2 * n.toNat ≤ digitCount content

/-- An update, with the reply to it. -/
def UpdateStep (mem : MemoryObject) (reply : Option Reply) (mem' : MemoryObject) : Prop :=
  (∀ r, reply = some r → r.WellFormed) ∧ mem' = mem.update (reply.map Reply.memory)

/-! ## What is read -/

variable {n : BitVec 32} {content : Option CStr} {mem mem' : MemoryObject} {reply : Option Reply}
  {r : Reply}

theorem covers_iff (h : r.WellFormed) : Covers n r.memory.content ↔ n.toNat ≤ r.bytes := by
  show 2 * n.toNat ≤ r.contents.length ↔ _
  rw [h.length]
  omega

/-! ## Lengths -/

theorem strtollHex_addr {s : CStr} (h : IsAddr s) :
    strtollHex s = BitVec.ofNat 64 (min (addrValue s) (2 ^ 63 - 1)) := by
  obtain ⟨ds, rfl⟩ := h
  show BitVec.ofInt 64 (saturate (readDigits 16 0 ds)) =
    BitVec.ofNat 64 (min (readDigits 16 0 ds) (2 ^ 63 - 1))
  rw [saturate_natCast, BitVec.ofInt_natCast]

/-- A reply is at least as long as the length that is taken from its addresses. -/
theorem length_memory_le (h : r.WellFormed) : r.memory.length.toNat ≤ r.bytes := by
  have hle := h.le
  show ((strtollHex r.end_ - strtollHex r.begin).truncate 32).toNat ≤ addrValue r.end_ - addrValue r.begin
  rw [strtollHex_addr h.begin, strtollHex_addr h.end_, BitVec.truncate_eq_setWidth,
    BitVec.toNat_setWidth, BitVec.toNat_sub, BitVec.toNat_ofNat, BitVec.toNat_ofNat]
  omega

/-- What has been acquired covers its length. -/
theorem covers_ofReply (h : r.WellFormed) :
    Covers (MemoryObject.ofReply r.memory).length (MemoryObject.ofReply r.memory).content :=
  (covers_iff h).mpr (length_memory_le h)

theorem length_update (mem : MemoryObject) (reply : Option Memory) :
    (mem.update reply).length = mem.length := by
  cases reply <;> rfl

/-- Behind an update with a reply, both contents cover `n` bytes if and only if the reply does, once
the content before does. -/
theorem covers_update_iff (hcontent : Covers n mem.content) (h : r.WellFormed) :
    Covers n (mem.update (some r.memory)).content ∧ Covers n (mem.update (some r.memory)).contentOld ↔
      n.toNat ≤ r.bytes := by
  show Covers n r.memory.content ∧ Covers n mem.content ↔ _
  rw [covers_iff h]
  exact and_iff_left hcontent

/-! ## Runs -/

/-- Behind a reply, both contents cover `n` bytes. -/
def CoversBehind (n : BitVec 32) (reply : Option Reply) (mem' : MemoryObject) : Prop :=
  reply ≠ none → Covers n mem'.content ∧ Covers n mem'.contentOld

/-- The reply is for `n` bytes at least, by its addresses. -/
def LongEnough (n : BitVec 32) (reply : Option Reply) : Prop := ∀ r, reply = some r → n.toNat ≤ r.bytes

theorem coversBehind_iff (hcontent : Covers n mem.content) (hstep : UpdateStep mem reply mem') :
    CoversBehind n reply mem' ↔ LongEnough n reply := by
  obtain ⟨hwf, rfl⟩ := hstep
  unfold CoversBehind LongEnough
  cases reply with
  | none => exact iff_of_true (fun h => absurd rfl h) nofun
  | some r =>
      have hiff := covers_update_iff hcontent (hwf r rfl)
      refine ⟨fun h => ?_, fun h _ => hiff.mpr (h r rfl)⟩
      rintro _ ⟨⟩
      exact hiff.mp (h (Option.some_ne_none r))

/-- The runs in which the contents cover `n` bytes, from an object whose content does. -/
theorem run_covers {m : MemoryObject} (hm : Covers n m.content) (es : List (Option Reply))
    (t : MemoryObject) :
    Run (fun mem e mem' => UpdateStep mem e mem' ∧ CoversBehind n e mem') m es t ↔
      Run (fun mem e mem' => UpdateStep mem e mem' ∧ LongEnough n e) m es t := by
  refine Run.guarded_iff (I := fun mem => Covers n mem.content)
    (g := fun _ e mem' => CoversBehind n e mem') hm ?_ ?_ es t
  · rintro mem e mem' hcontent ⟨hwf, rfl⟩ hlong
    cases e with
    | none => exact hcontent
    | some r => exact (covers_iff (hwf r rfl)).mpr (hlong r rfl)
  · intro mem e mem' hcontent hstep
    exact coversBehind_iff hcontent hstep

/-- Behind every update the contents of a segment cover its length if and only if every reply is for
as many bytes as the one with which it has been made.  Those of a range of `size` bytes cover it if and
only if every reply is for as many, that of the load as well. -/
theorem run_covers_iff (hr : r.WellFormed) (size : BitVec 32) (es : List (Option Reply))
    (t : MemoryObject) :
    (Run (fun mem e mem' => UpdateStep mem e mem' ∧ CoversBehind mem'.length e mem')
        (.ofReply r.memory) es t ↔
      Run (fun mem e mem' => UpdateStep mem e mem' ∧ LongEnough r.memory.length e)
        (.ofReply r.memory) es t) ∧
    (Covers size r.memory.content ∧
        Run (fun mem e mem' => UpdateStep mem e mem' ∧ CoversBehind size e mem')
          (.ofReply r.memory) es t ↔
      size.toNat ≤ r.bytes ∧
        Run (fun mem e mem' => UpdateStep mem e mem' ∧ LongEnough size e) (.ofReply r.memory) es t) := by
  constructor
  · refine Run.guarded_iff (I := fun mem : MemoryObject => mem.length = r.memory.length ∧
        Covers r.memory.length mem.content)
      (g := fun _ e (mem' : MemoryObject) => CoversBehind mem'.length e mem')
      (s := .ofReply r.memory) ⟨rfl, covers_ofReply hr⟩ ?_ ?_ es t
    · rintro mem e mem' ⟨hlength, hcontent⟩ ⟨hwf, rfl⟩ hlong
      refine ⟨(length_update mem _).trans hlength, ?_⟩
      cases e with
      | none => exact hcontent
      | some r' => exact (covers_iff (hwf r' rfl)).mpr (hlong r' rfl)
    · rintro mem e mem' ⟨hlength, hcontent⟩ hstep
      have hsame : mem'.length = r.memory.length := by
        rw [hstep.2, length_update, hlength]
      rw [hsame]
      exact coversBehind_iff hcontent hstep
  · rw [covers_iff hr]
    exact and_congr_right fun hsize => run_covers ((covers_iff hr).mpr hsize) es t

/-- Sixteen bytes, and the half of them that can still be read later. -/
def wholeReply : Reply := ⟨"0x1000".toList, "0x1010".toList, List.replicate 32 '0'⟩

def halfReply : Reply := ⟨"0x1000".toList, "0x1008".toList, List.replicate 16 '0'⟩

theorem wholeReply_wellFormed : wholeReply.WellFormed where
  begin := ⟨_, rfl⟩
  end_ := ⟨_, rfl⟩
  le := by decide
  length := by decide
  digits := forall_mem_of_all (by decide)

theorem halfReply_wellFormed : halfReply.WellFormed where
  begin := ⟨_, rfl⟩
  end_ := ⟨_, rfl⟩
  le := by decide
  length := by decide
  digits := forall_mem_of_all (by decide)

/-- The segment still has 16 bytes, but its content has the digits of 8. -/
theorem half_reply_not_covers : ∃ t,
    Run UpdateStep (.ofReply wholeReply.memory) [some halfReply] t ∧ t.length = 16 ∧
      ¬ Covers t.length t.content := by
  refine ⟨_, Run.nil.snoc ⟨?_, rfl⟩, by decide, by unfold Covers; decide⟩
  rintro _ ⟨⟩
  exact halfReply_wellFormed

/-- With as many bytes in each reply, the contents cover the segment. -/
theorem whole_replies_cover : ∃ t,
    Run (fun mem e mem' => UpdateStep mem e mem' ∧ CoversBehind mem'.length e mem')
      (.ofReply wholeReply.memory) [none, some wholeReply, some wholeReply] t := by
  have hwf : ∀ r, some wholeReply = some r → r.WellFormed := by
    rintro _ ⟨⟩
    exact wholeReply_wellFormed
  have hlong : LongEnough wholeReply.memory.length (some wholeReply) := by
    rintro _ ⟨⟩
    decide
  have hrun : ∃ t, Run (fun mem e mem' => UpdateStep mem e mem' ∧ LongEnough wholeReply.memory.length e)
      (.ofReply wholeReply.memory) [none, some wholeReply, some wholeReply] t :=
    ⟨_, ((Run.nil.snoc ⟨⟨nofun, rfl⟩, nofun⟩).snoc ⟨⟨hwf, rfl⟩, hlong⟩).snoc ⟨⟨hwf, rfl⟩, hlong⟩⟩
  obtain ⟨t, hrun⟩ := hrun
  exact ⟨t, (run_covers_iff wholeReply_wellFormed 16 _ t).1.mpr hrun⟩

end Vimgdb.Gdb
