import Uboss.Framework.HttpHead

/-!
# Writing a response

`writeall` of `httpd.lua`, as the list of the strings that it gives to `writefunc`. The fields come
in the order in which `pairs` returns them.
-/

namespace Uboss.Framework.Http

open Math Lib Lib.LuaText

def httpStatusMsg : List (ℤ × String) := [
  (100, "Continue"), (101, "Switching Protocols"), (200, "OK"), (201, "Created"),
  (202, "Accepted"), (203, "Non-Authoritative Information"), (204, "No Content"),
  (205, "Reset Content"), (206, "Partial Content"), (300, "Multiple Choices"),
  (301, "Moved Permanently"), (302, "Found"), (303, "See Other"), (304, "Not Modified"),
  (305, "Use Proxy"), (307, "Temporary Redirect"), (400, "Bad Request"), (401, "Unauthorized"),
  (402, "Payment Required"), (403, "Forbidden"), (404, "Not Found"), (405, "Method Not Allowed"),
  (406, "Not Acceptable"), (407, "Proxy Authentication Required"), (408, "Request Time-out"),
  (409, "Conflict"), (410, "Gone"), (411, "Length Required"), (412, "Precondition Failed"),
  (413, "Request Entity Too Large"), (414, "Request-URI Too Large"),
  (415, "Unsupported Media Type"), (416, "Requested range not satisfiable"),
  (417, "Expectation Failed"), (500, "Internal Server Error"), (501, "Not Implemented"),
  (502, "Bad Gateway"), (503, "Service Unavailable"), (504, "Gateway Time-out"),
  (505, "HTTP Version not supported")]

/-- `%03d` -/
def paddedCode (code : ℤ) : LuaString :=
  let sign := if code < 0 then [45] else []
  let digits := decimalDigits code.natAbs
  sign ++ List.replicate (3 - (sign ++ digits).length) 48 ++ digits

/-- The parameter `bodyfunc`. Of a function it has the strings it returns before `nil`. -/
inductive BodyFunc
  | string (s : LuaString)
  | function (strings : List LuaString)
  | nil
  deriving DecidableEq, Repr

/-- `%s: %s\r\n` -/
def fieldLine (k v : LuaString) : LuaString := k ++ text ": " ++ v ++ lineEnd

/-- The lines of a field. -/
def fieldLines (k : LuaString) : FieldValue → List LuaString
  | .one v => [fieldLine k v]
  | .many vs => vs.map (fieldLine k)

/-- The status line and the fields. -/
def headLines (statuscode : ℤ) (header : List (LuaString × FieldValue)) : List LuaString :=
  let message := ((httpStatusMsg.find? (·.1 = statuscode)).map (·.2)).getD ""
  (text "HTTP/1.1 " ++ paddedCode statuscode ++ text " " ++ text message ++ lineEnd) ::
    header.flatMap fun field => fieldLines field.1 field.2

/-- What is written for a string that the function has returned. -/
def writeChunk (s : LuaString) : List LuaString :=
  if s = [] then [] else [lineEnd ++ hexDigits s.length ++ lineEnd, s]

/-- `"transfer-encoding: chunked\r\n"` -/
def transferEncoding : LuaString := text "transfer-encoding: chunked" ++ lineEnd

/-- `writeall`: what is written, piece by piece. -/
def writeall (statuscode : ℤ) (bodyfunc : BodyFunc) (header : List (LuaString × FieldValue)) :
    List LuaString :=
  headLines statuscode header ++
    match bodyfunc with
    | .string s => [text "content-length: " ++ decimalDigits s.length ++ headEnd, s]
    | .function strings =>
      transferEncoding :: strings.flatMap writeChunk ++ [lineEnd ++ [48] ++ lineEnd ++ lineEnd]
    | .nil => [lineEnd]

end Uboss.Framework.Http
