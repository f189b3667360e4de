import MojoHttp.Bytes
import MojoHttp.Sse.Registry

/-!
# SSE wire formatting (`sse/format.mojo`)

How an event is framed, and what a frame's `data` fields carry.
-/

namespace MojoHttp

open BytesConstant

/-- The loop of `split_sse_lines`: `line` holds what was read since the last break, and `afterCr` that
the byte before was a CR, whose LF is part of the break. -/
def splitSseLinesFrom : Bytes → (line : Bytes) → (afterCr : Bool) → List Bytes
  | [], line, _ => [line]
  | c :: rest, line, afterCr =>
    if c == LF && afterCr then splitSseLinesFrom rest line false
    else if c == CR || c == LF then line :: splitSseLinesFrom rest [] (c == CR)
    else splitSseLinesFrom rest (line ++ [c]) false

/-- `split_sse_lines`: a payload split on CRLF, CR or LF. -/
def splitSseLines (data : Bytes) : List Bytes := splitSseLinesFrom data [] false

/-- `format_sse_event_bytes`. -/
def formatSseEventBytes (eventId : Int) (eventType data : Bytes) : Bytes :=
  (if eventId != NO_EVENT_ID then ascii "id: " ++ intText eventId ++ [LF] else []) ++
    ascii "event: " ++ eventType ++ [LF] ++
    ((splitSseLines data).flatMap fun part => ascii "data: " ++ part ++ [LF]) ++ [LF]

/-- A line's field name, and its value less the one space the framing puts before it. -/
def sseField (line : Bytes) : Bytes × Bytes :=
  let name := line.takeWhile (· != COLON)
  match line.drop name.length with
  | [] => (name, [])
  | _ :: value => (name, if value.head? == some whitespace then value.drop 1 else value)

/-- The values of the `data` fields, up to the blank line that ends the event. -/
def sseDataLines (lines : List Bytes) : List Bytes :=
  ((lines.takeWhile fun line => !line.isEmpty).filter fun line =>
    line.getD 0 0 != COLON && (sseField line).1 == ascii "data").map fun line => (sseField line).2

/-- `sse_data_payload`: the `data` fields' values, joined with one LF. -/
def sseDataPayload (frame : Bytes) : Bytes := [LF].intercalate (sseDataLines (splitSseLines frame))

end MojoHttp
