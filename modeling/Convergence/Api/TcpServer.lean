import Convergence.Library.Segments
import Convergence.OrderBook.Order

/-!
# Framing

`TCPServer::handle_client` of `tcp_server.cpp`. The server receives segments until it has seen a
newline, and passes everything it has received, less the newlines and carriage returns at its end,
to the handler as one request. Segments that TCP has merged are not taken apart again, so what came
in one segment behind the newline is part of the request.

## Main definitions

* `TCPServer.readRequest`, `TCPServer.stripLine`, `TCPServer.clientRequest`,
  `TCPServer.handleClient`.
* `TCPServer.lineRequest`: the request of a stream by lines.

## Main results

* `TCPServer.clientRequest_eq_iff`: the streams for which the segments do not matter.
-/

namespace Convergence

namespace TCPServer

/-- `'\n'`. -/
def newline : UInt8 := 10

/-- `'\r'`. -/
def carriageReturn : UInt8 := 13

/-- The size of `buf`. -/
def bufferSize : ℕ := 4096

/-- The loop that reads until a newline. Each segment is what one call of `recv` returns; after the
last one `recv` returns nothing more. -/
def readRequest : List Str → Str → Str
  | [], request => request
  | segment :: segments, request =>
    if newline ∈ request ++ segment then request ++ segment
    else readRequest segments (request ++ segment)

/-- The test of the loop that strips the request. -/
def isLineEnd (c : UInt8) : Bool := c == newline || c == carriageReturn

/-- The request without newlines and carriage returns at its end. -/
def stripLine (request : Str) : Str := request.rdropWhile isLineEnd

/-- An empty request is not passed to the handler. -/
def passedOn (request : Str) : Option Str := if request = [] then none else some request

/-- The request that is passed to the handler. -/
def clientRequest (segments : List Str) : Option Str :=
  passedOn (stripLine (readRequest segments []))

/-- `TCPServer::handle_client`: what is sent to the client. -/
def handleClient (handler : Str → Str) (segments : List Str) : Option Str :=
  (clientRequest segments).map fun request => handler request ++ [newline]

/-- The request of a stream by lines: what comes before the first newline, without carriage returns
at its end. -/
def lineRequest (stream : Str) : Option Str :=
  passedOn ((stream.takeWhile (· != newline)).rdropWhile (· == carriageReturn))

/-- As many bytes behind the first newline as fit into a segment with it are newlines and carriage
returns. -/
def CleanTail (stream : Str) : Prop :=
  ∀ c ∈ ((stream.dropWhile (· != newline)).drop 1).take (bufferSize - 1), isLineEnd c

variable {stream line rest : Str} {segments : List Str}

theorem readRequest_eq_readUntil (segments : List Str) (request : Str) :
    readRequest segments request = readUntil newline segments request := by
  induction segments generalizing request with
  | nil => rfl
  | cons segment segments ih => rw [readRequest, readUntil, ih]

theorem passedOn_injective : Function.Injective passedOn := by
  intro r r' h
  rw [passedOn, passedOn] at h
  split_ifs at h with hr hr'
  · rw [hr, hr']
  · exact Option.some.inj h

/-- In front of the first newline, only carriage returns are dropped. -/
theorem stripLine_of_notMem (h : newline ∉ line) :
    stripLine line = line.rdropWhile (· == carriageReturn) :=
  rdropWhile_congr fun c hc => by
    have hne : (c == newline) = false := beq_false_of_ne fun heq => h (heq ▸ hc)
    rw [isLineEnd, hne, Bool.false_or]

theorem lineRequest_of_notMem (h : newline ∉ stream) :
    lineRequest stream = passedOn (stripLine stream) := by
  have hline : stream.takeWhile (· != newline) = stream :=
    List.takeWhile_eq_self_iff.mpr fun c hc => bne_iff_ne.mpr fun heq => h (heq ▸ hc)
  rw [lineRequest, hline, stripLine_of_notMem h]

theorem takeWhile_line (h : newline ∉ line) (rest : Str) :
    (line ++ newline :: rest).takeWhile (· != newline) = line ∧
      (line ++ newline :: rest).dropWhile (· != newline) = newline :: rest := by
  have hall : ∀ c ∈ line, (c != newline) = true := fun c hc =>
    bne_iff_ne.mpr fun heq => h (heq ▸ hc)
  constructor
  · rw [List.takeWhile_append_of_pos hall, List.takeWhile_cons_of_neg (by simp), List.append_nil]
  · rw [List.dropWhile_append_of_pos hall, List.dropWhile_cons_of_neg (by simp)]

theorem cleanTail_line (h : newline ∉ line) :
    CleanTail (line ++ newline :: rest) ↔ ∀ c ∈ rest.take (bufferSize - 1), isLineEnd c := by
  rw [CleanTail, (takeWhile_line h rest).2, List.drop_one, List.tail_cons]

/-- A request with something behind the newline is that of the line if nothing of it is kept. -/
theorem passedOn_stripLine_eq_iff (h : newline ∉ line) (tail : Str) :
    passedOn (stripLine (line ++ newline :: tail)) = lineRequest (line ++ newline :: rest) ↔
      ∀ c ∈ tail, isLineEnd c := by
  rw [lineRequest, (takeWhile_line h rest).1, ← stripLine_of_notMem h,
    passedOn_injective.eq_iff, stripLine, stripLine, rdropWhile_append_eq_iff,
    List.forall_mem_cons]
  exact and_iff_right rfl

/-- Without a newline the whole stream is the request. -/
theorem clientRequest_of_notMem (hnew : newline ∉ stream)
    (hcut : IsCut bufferSize stream segments) : clientRequest segments = lineRequest stream := by
  have hstream : [] ++ segments.flatten = stream := hcut.flatten_eq
  rw [clientRequest, readRequest_eq_readUntil, readUntil_of_notMem (hstream ▸ hnew), hstream,
    lineRequest_of_notMem hnew]

/-- When nothing behind the newline is kept, the segments do not matter. -/
theorem clientRequest_of_cleanTail (hclean : CleanTail stream)
    (hcut : IsCut bufferSize stream segments) : clientRequest segments = lineRequest stream := by
  by_cases hnew : newline ∈ stream
  · obtain ⟨line, rest, rfl, hline⟩ := List.eq_append_cons_of_mem hnew
    rw [cleanTail_line hline] at hclean
    have hstream : [] ++ segments.flatten = line ++ newline :: rest := hcut.flatten_eq
    obtain ⟨tail, htail, hlen, hread⟩ :=
      exists_readUntil_eq hline hcut.length_le (Nat.zero_le _) hstream
    have hfirst : tail <+: rest.take (bufferSize - 1) :=
      List.prefix_take_iff.mpr ⟨htail, Nat.le_pred_of_lt hlen⟩
    rw [clientRequest, readRequest_eq_readUntil, hread, passedOn_stripLine_eq_iff hline]
    exact fun c hc => hclean c (hfirst.subset hc)
  · exact clientRequest_of_notMem hnew hcut

/-- One of the cuts brings as much behind the newline as fits. -/
theorem cleanTail_of_clientRequest (hall : ∀ segments, IsCut bufferSize stream segments →
    clientRequest segments = lineRequest stream) : CleanTail stream := by
  by_cases hnew : newline ∈ stream
  · obtain ⟨line, rest, rfl, hline⟩ := List.eq_append_cons_of_mem hnew
    rw [cleanTail_line hline]
    have hlen : (rest.take (bufferSize - 1)).length < bufferSize :=
      (List.length_take_le _ _).trans_lt (Nat.sub_lt (Nat.two_pow_pos 12) Nat.one_pos)
    obtain ⟨segments, hcut, hread⟩ :=
      exists_isCut_readUntil_eq hline (List.take_prefix (bufferSize - 1) rest) hlen
    have hrequest := hall segments hcut
    rw [clientRequest, readRequest_eq_readUntil, hread] at hrequest
    exact (passedOn_stripLine_eq_iff hline _).mp hrequest
  · have hnone : stream.dropWhile (· != newline) = [] :=
      List.dropWhile_eq_nil_iff.mpr fun c hc => bne_iff_ne.mpr fun heq => hnew (heq ▸ hc)
    rw [CleanTail, hnone]
    exact nofun

/-- The answer is then the handler's answer to the line. -/
theorem handleClient_of_cleanTail (handler : Str → Str) (hclean : CleanTail stream)
    (hcut : IsCut bufferSize stream segments) : handleClient handler segments =
      (lineRequest stream).map fun request => handler request ++ [newline] := by
  rw [handleClient, clientRequest_of_cleanTail hclean hcut]

/-- **Framing.** Whatever the segments, the request is that of the first line, if and only if
nothing but newlines and carriage returns can come in one segment behind the first newline. -/
theorem clientRequest_eq_iff (stream : Str) :
    (∀ segments, IsCut bufferSize stream segments →
      clientRequest segments = lineRequest stream) ↔ CleanTail stream :=
  ⟨cleanTail_of_clientRequest, fun hclean _ => clientRequest_of_cleanTail hclean⟩

/-- The stream `BOOK\n5\n` in one segment and in two: the handler is asked for `BOOK\n5`, the book
to depth 5, or for `BOOK`. -/
theorem clientRequest_ne_merged :
    IsCut bufferSize [66, 79, 79, 75, 10, 53, 10] [[66, 79, 79, 75, 10, 53, 10]] ∧
    IsCut bufferSize [66, 79, 79, 75, 10, 53, 10] [[66, 79, 79, 75, 10], [53, 10]] ∧
    clientRequest [[66, 79, 79, 75, 10, 53, 10]] ≠
      clientRequest [[66, 79, 79, 75, 10], [53, 10]] ∧
    clientRequest [[66, 79, 79, 75, 10, 53, 10]] ≠ lineRequest [66, 79, 79, 75, 10, 53, 10] := by
  have hmerged : clientRequest [[66, 79, 79, 75, 10, 53, 10]] = some [66, 79, 79, 75, 10, 53] := rfl
  have hsplit : clientRequest [[66, 79, 79, 75, 10], [53, 10]] = some [66, 79, 79, 75] := rfl
  have hline : lineRequest [66, 79, 79, 75, 10, 53, 10] = some [66, 79, 79, 75] := rfl
  rw [hmerged, hsplit, hline]
  exact ⟨⟨rfl, by simp, by simp [bufferSize]⟩, ⟨rfl, by simp, by simp [bufferSize]⟩,
    by simp, by simp⟩

end TCPServer

end Convergence
