import JiaTuanServer.Request.Containment

/-!
# How a stream is cut

TCP hands the bytes of a connection to the callback in chunks. The callback keeps nothing between
calls and looks for no end of a request: it answers the document at the start of a chunk and drops
what follows. So there is one reply for each chunk, as long as there is memory for it, and the
replies are those of the documents only where the chunks are.
-/

namespace JiaTuanServer.Request

open LocalTriple

/-- What `Json::Reader` does with documents: it fails on an incomplete one, and on a text that
begins with a complete one it yields its value and ignores the rest. -/
structure ReadsDocuments (parse : Bytes → Option Value) (Document : Bytes → Value → Prop) :
    Prop where
  nonempty : ∀ {d v}, Document d v → d ≠ []
  nonzero : ∀ {d v}, Document d v → 0 ∉ d
  complete : ∀ {d v} rest, Document d v → parse (d ++ rest) = some v
  incomplete : ∀ {d v p}, Document d v → p <+: d → p ≠ d → parse p = none

/-- What a callback finds in the input buffer, and whether `evbuffer_add` takes its reply. -/
structure Chunk where
  bytes : Bytes
  added : Bool
  deriving DecidableEq, Repr

/-- The chunks of a stream, one for each callback. -/
structure Cutting (stream : Bytes) (chunks : List Chunk) : Prop where
  whole : (chunks.map Chunk.bytes).flatten = stream
  nonempty : ∀ c ∈ chunks, c.bytes ≠ []
  short : ∀ c ∈ chunks, c.bytes.length ≤ 4095

/-- The chunk begins with the whole of a document. -/
def Begins (Document : Bytes → Value → Prop) (chunk : Chunk) (d : Bytes × Value) : Prop :=
  Document d.1 d.2 ∧ d.1 <+: chunk.bytes

section Chunks

variable {σ : Type} (mysql : Mysql σ) (jsoncpp : Jsoncpp)

/-- The callbacks of one connection. -/
def serveChunks : List Chunk → Handler σ Unit
  | [] => pure ()
  | chunk :: rest => do
    bufferedOnRead mysql jsoncpp chunk.added chunk.bytes
    serveChunks rest

/-- One answer: what the meaning of a parsed text asks for, and its reply. -/
def answer (added : Bool) (parsed : Option Value) : Handler σ Unit := do
  let item ← serve mysql (meaning parsed)
  addReply added (item.write jsoncpp.doubleToString)

def answerAll : List (Option Value × Bool) → Handler σ Unit
  | [] => pure ()
  | (parsed, added) :: rest => do
    answer mysql jsoncpp added parsed
    answerAll rest

variable {mysql jsoncpp} {chunk : Bytes} {chunks : List Chunk} {added : Bool}
  {Document : Bytes → Value → Prop}

/-- A chunk that leaves room for a zero byte is read up to its own first zero byte. -/
theorem receive_short (short : chunk.length ≤ 4095) : receive chunk = .ok (cString chunk) := by
  have room : bufMaxSize - chunk.length = (4095 - chunk.length) + 1 := by
    unfold bufMaxSize
    omega
  have fits : ¬ bufMaxSize < chunk.length := by
    unfold bufMaxSize
    omega
  have zero : (0 : UInt8) ∈ chunk ++ List.replicate (bufMaxSize - chunk.length) 0 := by simp [room]
  unfold receive
  simp only [if_neg fits, if_pos zero, cString_zeros]
  rfl

theorem bufferedOnRead_short (short : chunk.length ≤ 4095) :
    bufferedOnRead mysql jsoncpp added chunk =
      answer mysql jsoncpp added (jsoncpp.parse (cString chunk)) :=
  bufferedOnRead_eq (receive_short short)

/-- Every chunk is answered for itself. -/
theorem serveChunks_eq (short : ∀ c ∈ chunks, c.bytes.length ≤ 4095) :
    serveChunks mysql jsoncpp chunks =
      answerAll mysql jsoncpp (chunks.map fun c => (jsoncpp.parse (cString c.bytes), c.added)) := by
  induction chunks with
  | nil => rfl
  | cons chunk rest ih =>
    rw [serveChunks, bufferedOnRead_short (short chunk List.mem_cons_self),
      ih fun c mem => short c (List.mem_cons_of_mem _ mem)]
    rfl

/-- An answer makes one reply. -/
theorem answer_replies {parsed : Option Value} {w w' : World σ}
    (run : (answer mysql jsoncpp added parsed).run w = .ok ((), w')) :
    ∃ reply, w'.replies = w.replies ++ queued added reply := by
  obtain ⟨item, w₁, served, adds⟩ := run_bind_ok run
  cases adds
  exact ⟨_, by rw [← serve_silent _ w item w₁ served]⟩

theorem answerAll_replies {requests : List (Option Value × Bool)} {w w' : World σ}
    (run : (answerAll mysql jsoncpp requests).run w = .ok ((), w')) :
    ∃ replies, replies.length = requests.length ∧ w'.replies = w.replies ++
      (List.zipWith (fun request reply => queued request.2 reply) requests replies).flatten := by
  induction requests generalizing w with
  | nil =>
    cases run
    exact ⟨[], rfl, by simp⟩
  | cons request rest ih =>
    obtain ⟨⟨⟩, w₁, first, others⟩ := run_bind_ok run
    obtain ⟨reply, one⟩ := answer_replies first
    obtain ⟨replies, count, eq⟩ := ih others
    refine ⟨reply :: replies, by rw [List.length_cons, count, List.length_cons], ?_⟩
    rw [eq, one, List.zipWith_cons_cons, List.flatten_cons, List.append_assoc]

/-- A chunk that begins with a whole document means that document. -/
theorem parse_whole (reader : ReadsDocuments jsoncpp.parse Document) {d : Bytes} {v : Value}
    (document : Document d v) (whole : d <+: chunk) : jsoncpp.parse (cString chunk) = some v := by
  obtain ⟨rest, rfl⟩ := whole
  rw [cString_append (reader.nonzero document)]
  exact reader.complete _ document

/-- A chunk that ends inside its first document does not parse. -/
theorem parse_part (reader : ReadsDocuments jsoncpp.parse Document) {d : Bytes} {v : Value}
    (document : Document d v) (part : chunk <+: d) (proper : ¬ d <+: chunk) :
    jsoncpp.parse (cString chunk) = none := by
  have nonzero : 0 ∉ chunk := fun mem => reader.nonzero document (part.subset mem)
  rw [cString_eq_self nonzero]
  refine reader.incomplete document part ?_
  rintro rfl
  exact proper List.prefix_rfl

/-- A chunk that does not parse is answered without the database. -/
theorem answer_none : answer mysql jsoncpp added none =
    addReply added ((failureItem (-11) "Error:json data parse.").write jsoncpp.doubleToString) :=
  rfl

/-- A chunk that begins with a document answers that document, if it holds the whole of it. -/
theorem bufferedOnRead_at (reader : ReadsDocuments jsoncpp.parse Document) {d rest after : Bytes}
    {v : Value} (document : Document d v) (short : chunk.length ≤ 4095)
    (place : chunk ++ after = d ++ rest) :
    bufferedOnRead mysql jsoncpp added chunk =
      if d <+: chunk then answer mysql jsoncpp added (some v)
      else answer mysql jsoncpp added none := by
  rw [bufferedOnRead_short short]
  split
  next whole => rw [parse_whole reader document whole]
  next proper =>
    have part : chunk <+: d := by
      have begins : chunk <+: d ++ rest := ⟨after, place⟩
      have either := List.prefix_or_prefix_of_prefix begins (List.prefix_append d rest)
      exact either.resolve_right proper
    rw [parse_part reader document part proper]

/-- Chunks that each begin with a whole document answer just these documents. -/
theorem serveChunks_firsts (reader : ReadsDocuments jsoncpp.parse Document)
    {firsts : List (Bytes × Value)} (short : ∀ c ∈ chunks, c.bytes.length ≤ 4095)
    (begins : List.Forall₂ (Begins Document) chunks firsts) :
    serveChunks mysql jsoncpp chunks =
      answerAll mysql jsoncpp ((firsts.map fun d => some d.2).zip (chunks.map Chunk.added)) := by
  rw [serveChunks_eq short]
  congr 1
  induction begins with
  | nil => rfl
  | cons head _ ih =>
    rw [List.map_cons, List.map_cons, List.map_cons, List.zip_cons_cons,
      parse_whole reader head.1 head.2, ih fun c mem => short c (List.mem_cons_of_mem _ mem)]

/-- Chunks that are documents begin with them. -/
theorem begins_of_eq {docs : List (Bytes × Value)} (documents : ∀ d ∈ docs, Document d.1 d.2)
    (alike : List.Forall₂ (fun chunk d => chunk.bytes = d.1) chunks docs) :
    List.Forall₂ (Begins Document) chunks docs := by
  induction alike with
  | nil => exact .nil
  | @cons chunk d _ _ same _ ih =>
    have begins : d.1 <+: chunk.bytes := same ▸ List.prefix_rfl
    exact .cons ⟨documents d List.mem_cons_self, begins⟩
      (ih fun d mem => documents d (List.mem_cons_of_mem _ mem))

end Chunks

/-- The replies to a stream of documents, however it is cut: one is made for each chunk, and queued
if `evbuffer_add` takes it; to a chunk that begins where a document begins, the answer to that
document if the chunk holds all of it, else an error without a database call. Chunks that begin with
the same whole documents are answered alike, and chunks that are the documents one by one. -/
theorem replies_per_chunk {σ : Type} (mysql : Mysql σ) {jsoncpp : Jsoncpp}
    {Document : Bytes → Value → Prop} (reader : ReadsDocuments jsoncpp.parse Document)
    {docs : List (Bytes × Value)} (documents : ∀ d ∈ docs, Document d.1 d.2) {chunks : List Chunk}
    (cut : Cutting (docs.map Prod.fst).flatten chunks) :
    (∀ w w', (serveChunks mysql jsoncpp chunks).run w = .ok ((), w') →
      ∃ replies, replies.length = chunks.length ∧ w'.replies = w.replies ++
        (List.zipWith (fun chunk reply => queued chunk.added reply) chunks replies).flatten) ∧
    (∀ before chunk after done d v rest, chunks = before ++ chunk :: after →
      docs = done ++ (d, v) :: rest →
      (before.map Chunk.bytes).flatten = (done.map Prod.fst).flatten →
      bufferedOnRead mysql jsoncpp chunk.added chunk.bytes =
        if d <+: chunk.bytes then answer mysql jsoncpp chunk.added (some v)
        else addReply chunk.added
          ((failureItem (-11) "Error:json data parse.").write jsoncpp.doubleToString)) ∧
    (∀ chunks' firsts, Cutting (docs.map Prod.fst).flatten chunks' →
      List.Forall₂ (Begins Document) chunks firsts →
      List.Forall₂ (Begins Document) chunks' firsts →
      chunks.map Chunk.added = chunks'.map Chunk.added →
      serveChunks mysql jsoncpp chunks = serveChunks mysql jsoncpp chunks') ∧
    (chunks.map Chunk.bytes = docs.map Prod.fst →
      serveChunks mysql jsoncpp chunks =
        answerAll mysql jsoncpp ((docs.map fun d => some d.2).zip (chunks.map Chunk.added))) := by
  refine ⟨fun w w' run => ?_, ?_, fun chunks' firsts cut' begins begins' same => ?_, fun each => ?_⟩
  · rw [serveChunks_eq cut.short] at run
    obtain ⟨replies, count, eq⟩ := answerAll_replies run
    rw [List.length_map] at count
    rw [List.zipWith_map_left] at eq
    exact ⟨replies, count, eq⟩
  · rintro before chunk after done d v rest rfl rfl start
    have whole := cut.whole
    simp only [List.flatten_append, List.flatten_cons, List.map_append, List.map_cons, start]
      at whole
    have refused : answer mysql jsoncpp chunk.added none = _ := answer_none
    rw [← refused]
    exact bufferedOnRead_at reader (documents (d, v) (by simp)) (cut.short chunk (by simp))
      (List.append_cancel_left whole)
  · rw [serveChunks_firsts reader cut.short begins, serveChunks_firsts reader cut'.short begins',
      same]
  · refine serveChunks_firsts reader cut.short ?_
    have alike : List.Forall₂ (· = ·) (chunks.map Chunk.bytes) (docs.map Prod.fst) := by
      rw [List.forall₂_eq_eq_eq]
      exact each
    rw [List.forall₂_map_left_iff, List.forall₂_map_right_iff] at alike
    exact begins_of_eq documents alike

/-! ## One login, whole and in two pieces -/

section Login

open JsonText Json

/-- What the theorem assumes of the parser holds of the modelled one. -/
theorem jsoncpp_reads {scan : Bytes → Option UInt64} {doubleToString : UInt64 → Bytes}
    {overrun : Bytes → Option Value} :
    ReadsDocuments (jsoncpp scan doubleToString overrun).parse (Document scan) where
  nonempty := document_ne_nil
  nonzero := document_nonzero
  complete := jsoncpp_complete
  incomplete := jsoncpp_incomplete

def loginValue : Value :=
  .object [(text "FunctionName", .string (text "login")), (text "User_login", .string (text "1")),
    (text "User_pass", .string (text "2"))]

theorem loginText_document : Document (fun _ => none) loginText loginValue := by
  have plain {s : Bytes} (all : s.all fun c => 0x20 ≤ c && c ≠ 0x22 && c ≠ 0x5C) :
      Quoted s (0x22 :: s ++ [0x22]) :=
    .plain fun c mem => by simpa [and_assoc] using List.all_eq_true.mp all c mem
  have function : Quoted (text "FunctionName") _ := plain (by decide)
  have login : Quoted (text "login") _ := plain (by decide)
  have user : Quoted (text "User_login") _ := plain (by decide)
  have one : Quoted (text "1") _ := plain (by decide)
  have pass : Quoted (text "User_pass") _ := plain (by decide)
  have two : Quoted (text "2") _ := plain (by decide)
  have members := Derives.member .nil function .nil .nil (.string login) .nil
    (.member .nil user .nil .nil (.string one) .nil
      (.lastMember .nil pass .nil .nil (.string two) .nil))
  exact document_of_text (.object members) rfl ⟨trivial, trivial, trivial, trivial⟩
    (by decide +kernel)

theorem replies_per_chunk_logins :
    serveChunks (Mysql.fixed working) withoutReals [⟨loginText, true⟩, ⟨loginText, false⟩] =
      answerAll (Mysql.fixed working) withoutReals
        [(some loginValue, true), (some loginValue, false)] := by
  have documents : ∀ d ∈ [(loginText, loginValue), (loginText, loginValue)],
      Document (fun _ => none) d.1 d.2 := by
    intro d mem
    rcases List.mem_pair.mp mem with rfl | rfl <;> exact loginText_document
  have cut : Cutting ([(loginText, loginValue), (loginText, loginValue)].map Prod.fst).flatten
      [⟨loginText, true⟩, ⟨loginText, false⟩] := ⟨rfl, by decide +kernel, by decide +kernel⟩
  exact (replies_per_chunk (Mysql.fixed working) jsoncpp_reads documents cut).2.2.2 rfl

/-- One login, in one chunk and cut behind its first quote: the replies and the database calls
differ. -/
theorem cut_changes_replies :
    ReadsDocuments withoutReals.parse (Document fun _ => none) ∧
      Document (fun _ => none) loginText loginValue ∧
      Cutting loginText [⟨loginText, true⟩] ∧
      Cutting loginText [⟨loginText.take 2, true⟩, ⟨loginText.drop 2, true⟩] ∧
      ∃ w w', (serveChunks (Mysql.fixed working) withoutReals [⟨loginText, true⟩]).run
          ⟨(), [], []⟩ = .ok ((), w) ∧
        (serveChunks (Mysql.fixed working) withoutReals
          [⟨loginText.take 2, true⟩, ⟨loginText.drop 2, true⟩]).run ⟨(), [], []⟩ = .ok ((), w') ∧
        w.replies = [successItem.write withoutReals.doubleToString] ∧ w.calls.length = 5 ∧
        w'.replies = [(failureItem (-11) "Error:json data parse.").write
            withoutReals.doubleToString,
          (failureItem (-11) "Error:json data parse.").write withoutReals.doubleToString] ∧
        w'.calls = [] := by
  have short : ∀ c ∈ [Chunk.mk loginText true], c.bytes.length ≤ 4095 := by decide +kernel
  have short' : ∀ c ∈ [Chunk.mk (loginText.take 2) true, Chunk.mk (loginText.drop 2) true],
      c.bytes.length ≤ 4095 := by decide +kernel
  refine ⟨jsoncpp_reads, loginText_document, ⟨by decide +kernel, by decide +kernel, short⟩,
    ⟨by decide +kernel, by decide +kernel, short'⟩, ?_⟩
  have whole : meaning (withoutReals.parse (cString loginText)) =
      .operation (.login (text "1") (text "2")) := by decide +kernel
  have first : withoutReals.parse (cString (loginText.take 2)) = none :=
    Option.isNone_iff_eq_none.mp (by decide +kernel)
  have second : withoutReals.parse (cString (loginText.drop 2)) = none :=
    Option.isNone_iff_eq_none.mp (by decide +kernel)
  rw [serveChunks_eq short, serveChunks_eq short']
  simp only [List.map_cons, List.map_nil, whole, first, second, answerAll, answer]
  exact ⟨_, _, rfl, rfl, rfl, rfl, rfl, rfl⟩

end Login

end JiaTuanServer.Request
