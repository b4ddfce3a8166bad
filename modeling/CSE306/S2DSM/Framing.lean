import CSE306.ByteStream
import CSE306.S2DSM.Page
import CSE306.S2DSM.Replica
import Mathlib.Tactic.IntervalCases

/-! The records on the sockets, byte by byte, when a read may return less than it
asked for. Every reader issues one read for each record. -/
namespace CSE306.S2DSM
open ByteStream

variable {pageSize : Nat}

/-- The fields of `struct msg_request` as they are sent: what the type asks for and
the 32 bits of `which_page`. -/
abbrev RawRequest := Kind × BitVec 32

def requestType : Kind → UInt8
  | .fetch => 70
  | .invalidate => 73

/-- What `sent_request` writes. The three bytes between the two fields are never set. -/
def sentRequest (request : RawRequest) (padding : Vector UInt8 3) : List UInt8 :=
  requestType request.1 :: padding.toList ++ littleEndian 4 request.2.toNat

/-- What `server_thread` does with its `request` variable after a read: it acts on 'F'
and on 'I', and ignores any other type. -/
def actsOn (request : List UInt8) : Option RawRequest :=
  let whichPage := BitVec.ofNat 32 (ofLittleEndian (request.drop 4))
  match request.head? with
  | some 70 => some (.fetch, whichPage)
  | some 73 => some (.invalidate, whichPage)
  | _ => none

/-- The requests `server_thread` acts on, with what its reads return. -/
def serverActs (request stream : List UInt8) (counts : List Nat) : List RawRequest :=
  (reads request stream counts).filterMap actsOn

theorem length_sentRequest (request : RawRequest) (padding : Vector UInt8 3) :
    (sentRequest request padding).length = 8 := by
  simp [sentRequest]

theorem actsOn_sentRequest (request : RawRequest) (padding : Vector UInt8 3) :
    actsOn (sentRequest request padding) = some request := by
  obtain ⟨kind, whichPage⟩ := request
  have fits : whichPage.toNat < 256 ^ 4 := whichPage.isLt
  have field : (sentRequest (kind, whichPage) padding).drop 4 = littleEndian 4 whichPage.toNat := by
    simp [sentRequest]
  simp only [actsOn, field, ofLittleEndian_littleEndian fits, BitVec.ofNat_toNat,
    BitVec.setWidth_eq]
  cases kind <;> simp [sentRequest, requestType]

/-- The bytes of several requests, each with what its padding happened to be. -/
def sentRequests (sent : List (RawRequest × Vector UInt8 3)) : List UInt8 :=
  (sent.map fun r => sentRequest r.1 r.2).flatten

theorem serverActs_whole {sent : List (RawRequest × Vector UInt8 3)} (request : List UInt8)
    (size : request.length = 8) :
    serverActs request (sentRequests sent) (List.replicate sent.length 8) = sent.map Prod.fst := by
  have sized : ∀ r ∈ sent.map fun r => sentRequest r.1 r.2, r.length = 8 := by
    intro r mem
    obtain ⟨r, _, rfl⟩ := List.mem_map.mp mem
    exact length_sentRequest r.1 r.2
  have records := reads_whole sized request size
  rw [List.length_map] at records
  rw [serverActs, sentRequests, records, List.filterMap_map, ← List.filterMap_eq_map]
  congr 1
  funext r
  exact actsOn_sentRequest r.1 r.2

def fetchZero : List UInt8 := sentRequest (.fetch, 0) (Vector.replicate 3 0)

/-- A request for a page whose number differs from 0 in its last byte only. -/
def fetchFar : RawRequest × Vector UInt8 3 := ((.fetch, 0x1000000), Vector.replicate 3 0)

theorem actsOn_short (least : 1 ≤ count) (short : count < 8) (rest : List UInt8) :
    actsOn (read fetchZero (sentRequest fetchFar.1 fetchFar.2 ++ rest) count).1 =
      some (.fetch, 0) := by
  have cut : (sentRequest fetchFar.1 fetchFar.2 ++ rest).take count =
      (sentRequest fetchFar.1 fetchFar.2).take count :=
    List.take_append_of_le_length (by rw [length_sentRequest]; omega)
  simp only [ByteStream.read, cut]
  interval_cases count <;> decide

theorem serverActs_next (sent : List (RawRequest × Vector UInt8 3)) (counts : List Nat) :
    serverActs fetchZero (sentRequests (((.fetch, 0), Vector.replicate 3 0) :: sent))
      (8 :: counts) = (.fetch, 0) :: serverActs fetchZero (sentRequests sent) counts := by
  have first : ByteStream.read fetchZero (fetchZero ++ sentRequests sent) 8 =
      (fetchZero, sentRequests sent) := read_whole fetchZero fetchZero (sentRequests sent) rfl
  have known : actsOn fetchZero = some (.fetch, 0) := actsOn_sentRequest _ _
  change (reads fetchZero (fetchZero ++ sentRequests sent) (8 :: counts)).filterMap actsOn = _
  rw [reads, first, List.filterMap_cons_some known]
  rfl

theorem whole_of_serverActs (splits : Splits 8 total counts)
    (acts : ∀ sent : List (RawRequest × Vector UInt8 3), sent.length = total →
      serverActs fetchZero (sentRequests sent) counts = sent.map Prod.fst) :
    ∀ k ∈ counts, k = 8 := by
  induction counts generalizing total with
  | nil => simp
  | cons k counts ih =>
    obtain ⟨bounds, sum⟩ := splits
    obtain ⟨least, most⟩ := bounds k List.mem_cons_self
    rw [List.sum_cons] at sum
    obtain ⟨total, rfl⟩ : ∃ t, total = t + 1 := ⟨total - 1, by omega⟩
    have full : k = 8 := by
      by_contra short
      have wrong := acts (fetchFar :: List.replicate total fetchFar) (by simp)
      rw [sentRequests, List.map_cons, List.flatten_cons, serverActs, reads,
        List.filterMap_cons_some (actsOn_short least (by omega) _), List.map_cons] at wrong
      exact absurd (List.cons.inj wrong).1 (by decide)
    subst full
    have shorter : Splits 8 total counts :=
      ⟨fun k mem => bounds k (List.mem_cons_of_mem _ mem), by omega⟩
    refine List.forall_mem_cons.mpr ⟨rfl, ih shorter fun sent length => ?_⟩
    have next := acts (((.fetch, 0), Vector.replicate 3 0) :: sent) (by simp [length])
    rw [serverActs_next, List.map_cons] at next
    exact (List.cons.inj next).2

/-- What one fetch leaves: the entry, the bytes installed, and those left unread. -/
structure Fetched where
  msi : Msi
  page : List UInt8
  unread : List UInt8

/-- One fetch of the handler: it reads one byte, and after '1' once more for the page,
into the buffer it has cleared. -/
def resolveFetch (pageSize : Nat) (stream : List UInt8) (count : Nat) : Fetched :=
  let page := (Page.zero pageSize).bytes
  match stream with
  | 48 :: rest => ⟨.shared, page, rest⟩
  | 49 :: rest =>
    let (page, rest) := ByteStream.read page rest count
    ⟨.shared, page, rest⟩
  | _ :: rest => ⟨.invalid, page, rest⟩
  | [] => ⟨.invalid, page, []⟩

/-- What `server_thread` writes for one 'F'. -/
def answerBytes : Option (Page pageSize) → List UInt8
  | none => [48]
  | some page => 49 :: page.bytes

/-- The fetches of a handler in turn, each with its answer and what a read of its page
returns. -/
def fetches (unread : List UInt8) : List (Option (Page pageSize) × Nat) → List Fetched
  | [] => []
  | (answer, count) :: rest =>
    let result := resolveFetch pageSize (unread ++ answerBytes answer) count
    result :: fetches result.unread rest

def Fetched.exact (answer : Option (Page pageSize)) : Fetched :=
  ⟨.shared, (answer.getD (.zero pageSize)).bytes, []⟩

theorem resolveFetch_exact (answer : Option (Page pageSize)) (bound : count ≤ pageSize) :
    resolveFetch pageSize (answerBytes answer) count = .exact answer ↔
      (answer.isSome → count = pageSize) := by
  cases answer with
  | none => simp [resolveFetch, answerBytes, Fetched.exact]
  | some page =>
    constructor
    · intro same _
      have unread := congrArg Fetched.unread same
      simp only [resolveFetch, answerBytes, ByteStream.read, Fetched.exact,
        List.drop_eq_nil_iff, page.size] at unread
      omega
    · intro full
      obtain rfl : count = pageSize := full rfl
      have whole := read_whole (Page.zero count).bytes page.bytes []
        ((Page.zero count).size.trans page.size.symm)
      rw [page.size, List.append_nil] at whole
      simp only [resolveFetch, answerBytes, whole, Fetched.exact, Option.getD_some]

/-- Every fetch takes exactly its answer if and only if no read of a page is short. -/
theorem fetches_exact {exchanges : List (Option (Page pageSize) × Nat)}
    (bounds : ∀ x ∈ exchanges, x.2 ≤ pageSize) :
    fetches [] exchanges = exchanges.map (fun x => .exact x.1) ↔
      ∀ x ∈ exchanges, x.1.isSome → x.2 = pageSize := by
  induction exchanges with
  | nil => simp [fetches]
  | cons x exchanges ih =>
    obtain ⟨answer, count⟩ := x
    have later := ih fun x mem => bounds x (List.mem_cons_of_mem _ mem)
    have here := resolveFetch_exact answer (bounds _ List.mem_cons_self)
    rw [List.forall_mem_cons, ← here, ← later, fetches, List.map_cons, List.nil_append,
      List.cons.injEq]
    constructor
    · rintro ⟨first, rest⟩
      rw [first] at rest
      exact ⟨first, rest⟩
    · rintro ⟨first, rest⟩
      rw [first]
      exact ⟨rfl, rest⟩

/-- `struct init_info` as it is sent: an address and a length of 64 bits each. -/
def initInfo (mmapAddr len : BitVec 64) : List UInt8 :=
  littleEndian 8 mmapAddr.toNat ++ littleEndian 8 len.toNat

/-- What `second_process_receive` takes its mapping from, after one read into `info`. -/
def readInitInfo (info : List UInt8) : BitVec 64 × BitVec 64 :=
  (.ofNat 64 (ofLittleEndian (info.take 8)), .ofNat 64 (ofLittleEndian (info.drop 8)))

theorem length_initInfo (mmapAddr len : BitVec 64) : (initInfo mmapAddr len).length = 16 := by
  simp [initInfo]

theorem readInitInfo_initInfo (mmapAddr len : BitVec 64) :
    readInitInfo (initInfo mmapAddr len) = (mmapAddr, len) := by
  have fits : ∀ value : BitVec 64, value.toNat < 256 ^ 8 := fun value => value.isLt
  simp [readInitInfo, initInfo, ofLittleEndian_littleEndian (fits _)]

theorem initInfo_exact (info rest : List UInt8) (size : info.length = 16)
    (mmapAddr len : BitVec 64) (bound : count ≤ 16) :
    (readInitInfo (ByteStream.read info (initInfo mmapAddr len ++ rest) count).1 = (mmapAddr, len) ∧
      (ByteStream.read info (initInfo mmapAddr len ++ rest) count).2 = rest) ↔ count = 16 := by
  constructor
  · rintro ⟨_, unread⟩
    have length := congrArg List.length unread
    simp only [ByteStream.read, List.length_drop, List.length_append, length_initInfo] at length
    omega
  · rintro rfl
    have whole := read_whole info (initInfo mmapAddr len) rest
      (size.trans (length_initInfo mmapAddr len).symm)
    rw [length_initInfo] at whole
    rw [whole]
    exact ⟨readInitInfo_initInfo mmapAddr len, rfl⟩

/-- Framing survives segmentation exactly where no read of a record is short: the server
acts on the requests sent whatever they are, every fetch takes its answer and no more,
and the second process takes the record of the first one. -/
theorem framing_iff_whole_reads :
    (∀ total counts, Splits 8 total counts →
      ((∀ (sent : List (RawRequest × Vector UInt8 3)) (request : List UInt8),
          sent.length = total → request.length = 8 →
          serverActs request (sentRequests sent) counts = sent.map Prod.fst) ↔
        ∀ k ∈ counts, k = 8)) ∧
    (∀ exchanges : List (Option (Page pageSize) × Nat), (∀ x ∈ exchanges, x.2 ≤ pageSize) →
      (fetches [] exchanges = exchanges.map (fun x => .exact x.1) ↔
        ∀ x ∈ exchanges, x.1.isSome → x.2 = pageSize)) ∧
    ∀ (info rest : List UInt8) (mmapAddr len : BitVec 64) (count : Nat), info.length = 16 →
      count ≤ 16 → ((readInitInfo (ByteStream.read info (initInfo mmapAddr len ++ rest) count).1 =
          (mmapAddr, len) ∧
        (ByteStream.read info (initInfo mmapAddr len ++ rest) count).2 = rest) ↔ count = 16) := by
  refine ⟨fun total counts splits => ⟨fun acts => ?_, fun full sent request length size => ?_⟩,
    fun exchanges bounds => fetches_exact bounds,
    fun info rest mmapAddr len count size bound => initInfo_exact info rest size mmapAddr len bound⟩
  · exact whole_of_serverActs splits fun sent length => acts sent fetchZero length rfl
  · rw [splits.whole (by decide) full, ← length]
    exact serverActs_whole request size

def invalidateThenFetch : List (RawRequest × Vector UInt8 3) :=
  [((.invalidate, 0), Vector.replicate 3 0), ((.fetch, 1), Vector.replicate 3 0)]

theorem framing_iff_whole_reads_two :
    serverActs (List.replicate 8 0) (sentRequests invalidateThenFetch) [8, 8] =
        [(.invalidate, 0), (.fetch, 1)] ∧
      fetches [] [(some (strncpy 4 [72, 105]), 4), (none, 1)] =
        [.exact (some (strncpy 4 [72, 105])), .exact (none : Option (Page 4))] := by
  refine ⟨?_, ?_⟩
  · exact (((@framing_iff_whole_reads 4).1 2 [8, 8] ⟨by decide, by decide⟩).mpr (by decide)
      invalidateThenFetch _ rfl (by decide))
  · exact ((@framing_iff_whole_reads 4).2.1
      [(some (strncpy 4 [72, 105]), 4), (none, 1)] (by decide)).mpr (by simp)

/-- The second record read in two halves: the server acts on the page of the first one. -/
theorem serverActs_halves : Splits 8 2 [8, 4, 4] ∧
    serverActs (List.replicate 8 0) (sentRequests invalidateThenFetch) [8, 4, 4] =
      [(.invalidate, 0), (.fetch, 0)] ∧
    serverActs (List.replicate 8 0) (sentRequests invalidateThenFetch) [8, 4, 4] ≠
      invalidateThenFetch.map Prod.fst := by
  refine ⟨⟨by decide, by decide⟩, by decide, by decide⟩

end CSE306.S2DSM
