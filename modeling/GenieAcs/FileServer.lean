import GenieAcs.Doubles

/-!
# The file server

`listener` of `fs.ts` and the part of a file that it sends. Its range is half open, but a
range that ends past the file is refused, and the end of a suffix range is taken from the
length of the suffix. So a range is answered as it should be just when it starts past the
file, ends within it, or the suffix has all bytes but one (`ranged_download_iff`).
-/

namespace GenieAcs

namespace FileServer

open JsNumber

abbrev Buffer := List UInt8

/-! ## Parts of a file -/

/-- The loop of `partialContent`; `subarray` stops at the end of the chunk. -/
def partialFrom : List Buffer → Nat → Nat → List Buffer
  | [], _, _ => []
  | chunk :: chunks, bytesToSkip, bytesToRead =>
      if bytesToRead = 0 then []
      else if chunk.length ≤ bytesToSkip then
        partialFrom chunks (bytesToSkip - chunk.length) bytesToRead
      else
        let chunk := (chunk.drop bytesToSkip).take bytesToRead
        chunk :: partialFrom chunks 0 (bytesToRead - chunk.length)

/-- What is yielded. -/
def partialContent (chunks : List Buffer) (start stop : Nat) : List Buffer :=
  partialFrom chunks start (stop - start)

/-! ## Requests -/

/-- What the code takes from the runtime. -/
structure Runtime where
  md5 : JsString → JsString
  /-- `new Date`, in milliseconds. -/
  parseDate : JsString → JsNumber
  toUTCString : ℕ → JsString
  /-- `JSON.parse`: an error, a string, or another value. -/
  jsonParse : JsString → Option (Option JsString)

/-- A document of `collections.files`; its length is a whole number that a double can count. -/
structure File where
  id : JsString
  uploadDate : ℕ
  length : ℕ
  safe : length < 2 ^ 53

/-- A header that is absent or empty does not count. -/
structure Request where
  method : JsString
  filename : JsString
  ifMatch : JsString
  ifUnmodifiedSince : JsString
  ifNoneMatch : JsString
  ifModifiedSince : JsString
  range : JsString
  ifRange : JsString

structure Response where
  status : Nat
  headers : List (JsString × JsString)
  body : List Buffer

/-- "File size mismatch". -/
inductive ServerError where
  | sizeMismatch

section

variable (R : Runtime)

def generateETag (file : File) : JsString :=
  R.md5 (file.id ++ js "-" ++ toText (ofRat file.uploadDate) ++ js "-"
    ++ toText (ofRat file.length))

def etagOf (t : JsString) : Option JsString :=
  let t := trim t
  let t := if js "W/" <+: t then t.drop 2 else t
  match R.jsonParse t with
  | none => some t
  | some v => v

def matchEtag (etag header : JsString) : Bool :=
  (header.splitOn ','.toNat).any fun t => etagOf R t = some (js "*") ∨ etagOf R t = some etag

/-- `/^bytes=(\d*)-(\d*)$/`. -/
def matchRange (header : JsString) : Option (JsString × JsString) :=
  if js "bytes=" <+: header then
    let rest := header.drop 6
    match rest.dropWhile (isDigit 10) with
    | c :: digits =>
        if c = '-'.toNat ∧ digits.all (isDigit 10) then some (rest.takeWhile (isDigit 10), digits)
        else none
    | [] => none
  else none

/-- `status`, `start` and `end`. -/
abbrev Span := Nat × JsNumber × JsNumber

/-- What a range makes of `start` and `end`. -/
def rangeOf (length : ℕ) (header : JsString) : Span :=
  match matchRange header with
  | some (first, last) =>
      if first = [] ∧ last = [] then (416, ofRat 0, ofRat length)
      else
        let stop := if last = [] then ofRat length else add (parseInt last) (ofRat 1)
        let start :=
          if first = [] then sub (ofRat length) (parseInt last) else parseInt first
        (if gt stop start ∧ le stop (ofRat length) then 206 else 416, start, stop)
  | none => (416, ofRat 0, ofRat length)

/-- The status before the range. -/
def conditional (request : Request) (etag : JsString) (lastModified : JsNumber) : Nat :=
  let status := if request.ifMatch ≠ [] ∧ matchEtag R etag request.ifMatch = false then 412 else 200
  let status :=
    if request.ifUnmodifiedSince ≠ [] ∧ gt lastModified (R.parseDate request.ifUnmodifiedSince)
      then 412 else status
  if request.ifNoneMatch ≠ [] then
    if matchEtag R etag request.ifNoneMatch then 304 else status
  else if request.ifModifiedSince ≠ [] ∧ le lastModified (R.parseDate request.ifModifiedSince)
    then 304 else status

def spanOf (request : Request) (etag : JsString) (lastModified : JsNumber) (length : ℕ) : Span :=
  let status := conditional R request etag lastModified
  if request.range ≠ [] ∧ status = 200 then
    if request.ifRange ≠ [] ∧ matchEtag R etag request.ifRange = false
        ∧ le lastModified (R.parseDate request.ifRange) = false then (200, ofRat 0, ofRat length)
    else rangeOf length request.range
  else (status, ofRat 0, ofRat length)

/-- The chunks of the file, whose sizes have to add up. -/
def getFile (size : ℕ) (chunks : List Buffer) : Except ServerError (List Buffer) :=
  if size = (chunks.map List.length).sum then .ok chunks else .error .sizeMismatch

/-- An index of the file. -/
def index : JsNumber → Nat
  | some (some (some q)) => ⌊q⌋.toNat
  | _ => 0

def contentRange (start stop : JsNumber) (length : ℕ) : JsString :=
  js "bytes " ++ toText start ++ js "-" ++ toText (sub stop (ofRat 1)) ++ js "/"
    ++ toText (ofRat length)

/-- `bucket` has the chunks that the stream of a file comes in. -/
def listener (files : JsString → Option File) (bucket : JsString → List Buffer)
    (request : Request) : Except ServerError Response :=
  if request.method ≠ js "GET" ∧ request.method ≠ js "HEAD" then
    .ok ⟨405, [(js "Allow", js "GET, HEAD")], []⟩
  else match files request.filename with
    | none => .ok ⟨404, [], []⟩
    | some file =>
        let etag := generateETag R file
        -- the milliseconds are dropped
        let seconds := file.uploadDate / 1000 * 1000
        let (status, start, stop) := spanOf R request etag (ofRat seconds) file.length
        let dated := [(js "ETag", etag), (js "Last-Modified", R.toUTCString seconds)]
        if status = 412 then .ok ⟨412, [], []⟩
        else if status = 304 then .ok ⟨304, dated, []⟩
        else if status = 416 then
          .ok ⟨416, [(js "Content-Range", js "bytes */" ++ toText (ofRat file.length)),
            (js "Content-Length", js "0")], []⟩
        else
          let headers := [(js "Content-Type", js "application/octet-stream"),
            (js "Content-Length", toText (sub stop start)), (js "Accept-Ranges", js "bytes")]
            ++ dated ++ if status = 206 then
              [(js "Content-Range", contentRange start stop file.length)] else []
          if request.method = js "HEAD" then .ok ⟨status, headers, []⟩
          else do
            let chunks ← getFile file.length (bucket request.filename)
            .ok ⟨status, headers, partialContent chunks (index start) (index stop)⟩

end

/-! ## The bytes that are sent -/

/-- The loop sends what is left to read behind what is left to skip. -/
theorem partialFrom_flatten (chunks : List Buffer) (bytesToSkip bytesToRead : ℕ) :
    (partialFrom chunks bytesToSkip bytesToRead).flatten
      = (chunks.flatten.drop bytesToSkip).take bytesToRead := by
  induction chunks generalizing bytesToSkip bytesToRead with
  | nil => simp [partialFrom]
  | cons chunk chunks ih =>
      rw [partialFrom, List.flatten_cons]
      split_ifs with hread hskip
      · rw [hread, List.take_zero, List.flatten_nil]
      · rw [ih, List.drop_append, List.drop_eq_nil_of_le hskip, List.nil_append]
      · rw [List.flatten_cons, ih, List.drop_append_of_le_length (by omega), List.drop_zero,
          List.take_append, List.length_take]
        congr 2
        omega

theorem partialFrom_ne (chunks : List Buffer) (bytesToSkip bytesToRead : ℕ) :
    ∀ chunk ∈ partialFrom chunks bytesToSkip bytesToRead, chunk ≠ [] := by
  induction chunks generalizing bytesToSkip bytesToRead with
  | nil => exact fun _ h => absurd h List.not_mem_nil
  | cons chunk chunks ih =>
      rw [partialFrom]
      split_ifs with hread hskip
      · exact fun _ h => absurd h List.not_mem_nil
      · exact ih _ _
      · refine List.forall_mem_cons.mpr ⟨?_, ih _ _⟩
        rw [← List.length_pos_iff, List.length_take, List.length_drop]
        omega

/-- The chunks that are yielded are the bytes of the range, and none of them is empty. -/
theorem partialContent_bytes (chunks : List Buffer) (start stop : ℕ) :
    (partialContent chunks start stop).flatten
        = (chunks.flatten.drop start).take (stop - start) ∧
      ∀ chunk ∈ partialContent chunks start stop, chunk ≠ [] :=
  ⟨partialFrom_flatten chunks start (stop - start), partialFrom_ne chunks start (stop - start)⟩

/-! ## Range headers -/

/-- A number in a header. -/
structure Decimals where
  units : JsString
  ne : units ≠ []
  digit : ∀ c ∈ units, isDigit 10 c = true

def Decimals.value (d : Decimals) : ℕ := digitsValue 10 d.units

/-- `a-b`, `a-` and `-n`. -/
inductive RangeSpec where
  | closed (first last : Decimals) (h : first.value ≤ last.value)
  | fromFirst (first : Decimals)
  | suffix (count : Decimals)

namespace RangeSpec

def firstUnits : RangeSpec → JsString
  | closed first _ _ => first.units
  | fromFirst first => first.units
  | suffix _ => []

def lastUnits : RangeSpec → JsString
  | closed _ last _ => last.units
  | fromFirst _ => []
  | suffix count => count.units

def header (spec : RangeSpec) : JsString :=
  js "bytes=" ++ (spec.firstUnits ++ '-'.toNat :: spec.lastUnits)

/-- The bytes of a range, from the first one up to the one behind the last; a range without
any cannot be satisfied. -/
def interval (length : ℕ) : RangeSpec → Option (ℕ × ℕ)
  | closed first last _ =>
      if first.value < length then some (first.value, min (last.value + 1) length) else none
  | fromFirst first => if first.value < length then some (first.value, length) else none
  | suffix count => if count.value = 0 then none else some (length - count.value, length)

/-- The bytes that the listener finds for a range. -/
def sent (length : ℕ) : RangeSpec → Option (ℕ × ℕ)
  | closed first last _ =>
      if last.value + 1 ≤ length then some (first.value, last.value + 1) else none
  | fromFirst first => if first.value < length then some (first.value, length) else none
  | suffix count =>
      if count.value + 1 ≤ length ∧ length - count.value < count.value + 1 then
        some (length - count.value, count.value + 1)
      else none

/-- The range is answered with its bytes. -/
def Answered (length : ℕ) : RangeSpec → Prop
  | closed first last _ => length ≤ first.value ∨ last.value < length
  | fromFirst _ => True
  | suffix count => count.value = 0 ∨ count.value + 1 = length

end RangeSpec

theorem matchRange_units {first last : JsString} (hfirst : ∀ c ∈ first, isDigit 10 c = true)
    (hlast : ∀ c ∈ last, isDigit 10 c = true) :
    matchRange (js "bytes=" ++ (first ++ '-'.toNat :: last)) = some (first, last) := by
  have hdash : isDigit 10 '-'.toNat = false := by decide
  have hdrop : (js "bytes=" ++ (first ++ '-'.toNat :: last)).drop 6 = first ++ '-'.toNat :: last :=
    List.drop_left' rfl
  have hrest : (first ++ '-'.toNat :: last).dropWhile (isDigit 10) = '-'.toNat :: last := by
    rw [List.dropWhile_append_of_pos hfirst, List.dropWhile_cons, hdash, if_neg Bool.false_ne_true]
  have htake : (first ++ '-'.toNat :: last).takeWhile (isDigit 10) = first := by
    rw [List.takeWhile_append_of_pos hfirst, List.takeWhile_cons, hdash,
      if_neg Bool.false_ne_true, List.append_nil]
  rw [matchRange, if_pos (List.prefix_append _ _)]
  simp only [hdrop, hrest, htake]
  exact if_pos ⟨trivial, List.all_eq_true.mpr hlast⟩

theorem matchRange_header (spec : RangeSpec) :
    matchRange spec.header = some (spec.firstUnits, spec.lastUnits) := by
  cases spec with
  | closed first last h => exact matchRange_units first.digit last.digit
  | fromFirst first => exact matchRange_units first.digit fun _ h => absurd h List.not_mem_nil
  | suffix count => exact matchRange_units (fun _ h => absurd h List.not_mem_nil) count.digit

/-- A status of a range, and its bytes if there are any. -/
def Spans (r : Span) : Option (ℕ × ℕ) → Prop
  | none => r.1 = 416
  | some (start, stop) => r = (206, ofRat start, ofRat stop)

theorem Decimals.parseInt_eq (d : Decimals) : parseInt d.units = double d.value :=
  parseInt_digits d.ne d.digit

section

variable {length : ℕ} (hsafe : length < 2 ^ 53)

include hsafe

/-- From a first byte to the end. -/
theorem span_fromFirst (first : ℕ) : Spans
    (if gt (ofRat length) (double first) ∧ le (ofRat length) (ofRat length) then 206 else 416,
      double first, ofRat length)
    (if first < length then some (first, length) else none) := by
  have hstatus : (gt (ofRat length) (double first) = true ∧ le (ofRat length) (ofRat length) = true)
      ↔ first < length := by
    rw [gt_double first hsafe, le_ofRat]
    exact (and_iff_left (decide_eq_true le_rfl)).trans decide_eq_true_iff
  rw [if_congr hstatus rfl rfl]
  split_ifs with h
  · rw [double_nat (h.trans hsafe)]
    rfl
  · rfl

/-- Up to a last byte; what is before the first is all that matters of it. -/
theorem span_upTo {start : JsNumber} {first last : ℕ}
    (hstart : last + 1 ≤ length → start = ofRat first) : Spans
    (if gt (add (double last) (ofRat 1)) start ∧ le (add (double last) (ofRat 1)) (ofRat length)
      then 206 else 416, start, add (double last) (ofRat 1))
    (if last + 1 ≤ length ∧ first < last + 1 then some (first, last + 1) else none) := by
  have hstop : last + 1 ≤ length → add (double last) (ofRat 1) = ofRat (last + 1 : ℕ) := by
    intro hle
    have hcast : (last : ℚ) + 1 = ((last + 1 : ℕ) : ℚ) := by push_cast; rfl
    rw [double_nat (by omega), add_ofRat, hcast, double_nat (by omega)]
  have hstatus : (gt (add (double last) (ofRat 1)) start = true
        ∧ le (add (double last) (ofRat 1)) (ofRat length) = true)
      ↔ last + 1 ≤ length ∧ first < last + 1 := by
    rw [le_double_succ last hsafe, decide_eq_true_iff, and_comm]
    refine and_congr_right fun hle => ?_
    rw [hstart hle, hstop hle, gt_ofRat, decide_eq_true_iff, Nat.cast_lt]
  rw [if_congr hstatus rfl rfl]
  split_ifs with h
  · rw [hstart h.1, hstop h.1]
    rfl
  · rfl

theorem rangeOf_spans (spec : RangeSpec) :
    Spans (rangeOf length spec.header) (spec.sent length) := by
  cases spec with
  | closed first last h =>
      have hsent : (RangeSpec.closed first last h).sent length
          = if last.value + 1 ≤ length ∧ first.value < last.value + 1 then
              some (first.value, last.value + 1) else none :=
        if_congr (by omega) rfl rfl
      rw [rangeOf, matchRange_header]
      simp only [RangeSpec.firstUnits, RangeSpec.lastUnits, first.ne, last.ne, false_and,
        if_false, Decimals.parseInt_eq, hsent]
      exact span_upTo hsafe fun hle => double_nat (by omega)
  | fromFirst first =>
      rw [rangeOf, matchRange_header]
      simp only [RangeSpec.firstUnits, RangeSpec.lastUnits, first.ne, false_and, if_false,
        if_true, Decimals.parseInt_eq]
      exact span_fromFirst hsafe first.value
  | suffix count =>
      rw [rangeOf, matchRange_header]
      simp only [RangeSpec.firstUnits, RangeSpec.lastUnits, count.ne, and_false, if_false,
        if_true, Decimals.parseInt_eq]
      refine span_upTo hsafe fun hle => ?_
      rw [double_nat (by omega), sub_ofRat, ← Nat.cast_sub (by omega)]
      exact double_nat (by omega)

end

/-! ## Answers -/

/-- 416, or 206 with the bytes and where they are. -/
def Answers (bytes : Buffer) (r : Response) : Option (ℕ × ℕ) → Prop
  | none => r.status = 416
  | some (start, stop) => r.status = 206 ∧
      r.headers.lookup (js "Content-Range")
        = some (contentRange (ofRat start) (ofRat stop) bytes.length) ∧
      r.body.flatten = (bytes.drop start).take (stop - start)

/-- A `GET` with a range and no conditions. -/
def rangeRequest (filename : JsString) (spec : RangeSpec) : Request :=
  ⟨js "GET", filename, [], [], [], [], spec.header, []⟩

theorem index_nat (n : ℕ) : index (ofRat n) = n := by
  show ⌊(n : ℚ)⌋.toNat = n
  rw [Int.floor_natCast, Int.toNat_natCast]

section

variable (R : Runtime) {files : JsString → Option File} {bucket : JsString → List Buffer}
  {filename : JsString} {file : File} (hfile : files filename = some file)
  (hsize : (bucket filename).flatten.length = file.length)

include hfile hsize

/-- The listener answers with the bytes it finds. -/
theorem listener_answers (spec : RangeSpec) :
    ∃ r, listener R files bucket (rangeRequest filename spec) = .ok r ∧
      Answers (bucket filename).flatten r (spec.sent file.length) := by
  have hmethod : ¬ ((rangeRequest filename spec).method ≠ js "GET" ∧
      (rangeRequest filename spec).method ≠ js "HEAD") := fun h => h.1 rfl
  have hspan : ∀ etag lastModified, spanOf R (rangeRequest filename spec) etag lastModified
      file.length = rangeOf file.length spec.header := by
    intro etag lastModified
    rfl
  have hchunks : getFile file.length (bucket filename) = .ok (bucket filename) := by
    rw [getFile, if_pos (hsize.symm.trans List.length_flatten)]
  have hspans := rangeOf_spans file.safe spec
  rw [listener, if_neg hmethod]
  simp only [show (rangeRequest filename spec).filename = filename from rfl, hfile, hspan]
  generalize rangeOf file.length spec.header = r at hspans
  obtain ⟨status, start, stop⟩ := r
  cases hsent : spec.sent file.length with
  | none =>
      rw [hsent] at hspans
      obtain rfl : status = 416 := hspans
      exact ⟨_, rfl, rfl⟩
  | some span =>
      obtain ⟨first, last⟩ := span
      rw [hsent] at hspans
      obtain ⟨rfl, rfl, rfl⟩ : status = 206 ∧ start = ofRat first ∧ stop = ofRat last := by
        simpa [Spans] using hspans
      simp only [hchunks]
      refine ⟨_, rfl, rfl, ?_, ?_⟩
      · rw [hsize]
        rfl
      · rw [index_nat, index_nat]
        exact partialFrom_flatten _ _ _

end

/-- Bytes of another number are another answer, and so is 416. -/
theorem answers_length {bytes : Buffer} {r : Response} {start stop start' stop' : ℕ}
    (h : Answers bytes r (some (start, stop))) (h' : Answers bytes r (some (start', stop'))) :
    min (stop - start) (bytes.length - start) = min (stop' - start') (bytes.length - start') := by
  have hbody := congrArg List.length (h.2.2.symm.trans h'.2.2)
  rw [List.length_take, List.length_take, List.length_drop, List.length_drop] at hbody
  exact hbody

theorem not_answers_both {bytes : Buffer} {r : Response} {span : ℕ × ℕ}
    (h : Answers bytes r (some span)) : ¬ Answers bytes r none := by
  intro hnone
  have hstatus : (206 : ℕ) = 416 := h.1.symm.trans hnone
  exact absurd hstatus (by decide)

section

variable {bytes : Buffer} {r : Response}

theorem answers_closed {first last : Decimals} {h : first.value ≤ last.value}
    (hr : Answers bytes r ((RangeSpec.closed first last h).sent bytes.length)) :
    Answers bytes r ((RangeSpec.closed first last h).interval bytes.length)
      ↔ bytes.length ≤ first.value ∨ last.value < bytes.length := by
  rw [RangeSpec.sent] at hr
  rw [RangeSpec.interval]
  by_cases hlast : last.value + 1 ≤ bytes.length
  · rw [if_pos hlast] at hr
    rw [if_pos (by omega), min_eq_left hlast]
    exact iff_of_true hr (Or.inr hlast)
  · rw [if_neg hlast] at hr
    split_ifs with hfirst
    · exact iff_of_false (fun h => not_answers_both h hr) (by omega)
    · exact iff_of_true hr (Or.inl (by omega))

theorem answers_suffix {count : Decimals}
    (hr : Answers bytes r ((RangeSpec.suffix count).sent bytes.length)) :
    Answers bytes r ((RangeSpec.suffix count).interval bytes.length)
      ↔ count.value = 0 ∨ count.value + 1 = bytes.length := by
  rw [RangeSpec.sent] at hr
  rw [RangeSpec.interval]
  by_cases hzero : count.value = 0
  · rw [if_neg (by omega)] at hr
    rw [if_pos hzero]
    exact iff_of_true hr (Or.inl hzero)
  · rw [if_neg hzero]
    by_cases hall : count.value + 1 = bytes.length
    · rw [if_pos (by omega), hall] at hr
      exact iff_of_true hr (Or.inr hall)
    · refine iff_of_false (fun h => ?_) (by omega)
      split_ifs at hr with hsent
      · have hlength := answers_length h hr
        omega
      · exact not_answers_both h hr

end

/-- A range is answered as it should be just when it starts past the file, ends within it, or the
suffix has all bytes but one. -/
theorem ranged_download_iff (R : Runtime) {files : JsString → Option File}
    {bucket : JsString → List Buffer} {filename : JsString} {file : File}
    (hfile : files filename = some file)
    (hsize : (bucket filename).flatten.length = file.length) (spec : RangeSpec) :
    (∃ r, listener R files bucket (rangeRequest filename spec) = .ok r ∧
        Answers (bucket filename).flatten r (spec.interval file.length))
      ↔ spec.Answered file.length := by
  obtain ⟨r, hr, hsent⟩ := listener_answers R hfile hsize spec
  have hanswer : (∃ r, listener R files bucket (rangeRequest filename spec) = .ok r ∧
        Answers (bucket filename).flatten r (spec.interval file.length))
      ↔ Answers (bucket filename).flatten r (spec.interval file.length) := by
    rw [hr]
    exact ⟨fun ⟨r', hr', h⟩ => Except.ok.inj hr' ▸ h, fun h => ⟨r, rfl, h⟩⟩
  rw [hanswer]
  rw [← hsize] at hsent ⊢
  cases spec with
  | closed first last h => exact answers_closed hsent
  | fromFirst first => exact iff_of_true hsent trivial
  | suffix count => exact answers_suffix hsent

/-! Three bytes in two chunks. -/

def idle : Runtime := ⟨id, fun _ => none, fun _ => [], fun _ => none⟩

def threeBytes : File := ⟨js "a", 0, 3, by norm_num⟩

def one : Decimals := ⟨js "1", by decide, by decide⟩

def five : Decimals := ⟨js "5", by decide, by decide⟩

/-- The byte at index 1. -/
theorem ranged_download_within :
    (∃ r, listener idle (fun _ => some threeBytes) (fun _ => [[7], [8, 9]])
        (rangeRequest (js "a") (.closed one one (by decide))) = .ok r ∧
        Answers [7, 8, 9] r ((RangeSpec.closed one one (by decide)).interval 3))
      ↔ (RangeSpec.closed one one (by decide)).Answered 3 :=
  @ranged_download_iff idle (fun _ => some threeBytes) (fun _ => [[7], [8, 9]]) (js "a") threeBytes
    rfl rfl _

/-- `bytes=1-5` and `bytes=-1` are refused, with bytes from index 1 and 2 on. -/
theorem range_refused :
    (∃ r, listener idle (fun _ => some threeBytes) (fun _ => [[7], [8, 9]])
        (rangeRequest (js "a") (.closed one five (by decide))) = .ok r ∧ r.status = 416) ∧
      (RangeSpec.closed one five (by decide)).interval 3 = some (1, 3) ∧
    (∃ r, listener idle (fun _ => some threeBytes) (fun _ => [[7], [8, 9]])
        (rangeRequest (js "a") (.suffix one)) = .ok r ∧ r.status = 416) ∧
      (RangeSpec.suffix one).interval 3 = some (2, 3) :=
  ⟨@listener_answers idle (fun _ => some threeBytes) (fun _ => [[7], [8, 9]]) (js "a") threeBytes
      rfl rfl (.closed one five (by decide)), rfl,
    @listener_answers idle (fun _ => some threeBytes) (fun _ => [[7], [8, 9]]) (js "a") threeBytes
      rfl rfl (.suffix one), rfl⟩

end FileServer

end GenieAcs
