import Hwire.Io

/-!
# Errors

The error kinds of the crate. The cause of an error is kept where the code attaches one.
-/

namespace Hwire

inductive HeaderError where
  | token | contentLengthInvalid | transferEncodingUnexpected
  deriving DecidableEq, Repr

inductive Parse where
  | method | version | versionH2 | uri
  | header (e : HeaderError)
  | tooLarge | status | internal
  deriving DecidableEq, Repr

namespace Parse

def contentLengthInvalid : Parse := .header .contentLengthInvalid

def transferEncodingUnexpected : Parse := .header .transferEncodingUnexpected

/-- `From<httparse::Error> for Parse` -/
def ofHttparse : HttparseError → Parse
  | .headerName | .headerValue | .newLine | .token => .header .token
  | .status => .status
  | .tooManyHeaders => .tooLarge
  | .version => .version

end Parse

inductive UserError where
  | body | bodyWriteAborted | invalidConnectWithBody | service | noUpgrade | manualUpgrade | dispatchGone
  deriving DecidableEq, Repr

inductive ErrorKind where
  | parse (e : Parse)
  | user (e : UserError)
  | incompleteMessage | unexpectedMessage | canceled | channelClosed | io | body | bodyWrite | shutdown | http2
  deriving DecidableEq, Repr

/-- An error with the text of its cause. -/
structure Error where
  kind : ErrorKind
  cause : Option String := none
  deriving DecidableEq, Repr

namespace Error

def isParse (e : Error) : Bool :=
  match e.kind with
  | .parse _ => true
  | _ => false

def description (e : Error) : String :=
  match e.kind with
  | .parse .method => "invalid HTTP method parsed"
  | .parse .version => "invalid HTTP version parsed"
  | .parse .versionH2 => "invalid HTTP version parsed (found HTTP2 preface)"
  | .parse .uri => "invalid URI"
  | .parse (.header .token) => "invalid HTTP header parsed"
  | .parse (.header .contentLengthInvalid) => "invalid content-length parsed"
  | .parse (.header .transferEncodingUnexpected) => "unexpected transfer-encoding parsed"
  | .parse .tooLarge => "message head is too large"
  | .parse .status => "invalid HTTP status-code parsed"
  | .parse .internal => "internal error inside wreq and/or its dependencies, please report"
  | .incompleteMessage => "connection closed before message completed"
  | .unexpectedMessage => "received unexpected message from connection"
  | .channelClosed => "channel closed"
  | .canceled => "operation was canceled"
  | .body => "error reading a body from connection"
  | .bodyWrite => "error writing a body to connection"
  | .shutdown => "error shutting down connection"
  | .http2 => "http2 error"
  | .io => "connection error"
  | .user .body => "error from user's Body stream"
  | .user .bodyWriteAborted => "user body write aborted"
  | .user .invalidConnectWithBody => "user sent CONNECT request with non-zero body"
  | .user .service => "error from user's Service"
  | .user .noUpgrade => "no upgrade available"
  | .user .manualUpgrade => "upgrade expected but low level API in use"
  | .user .dispatchGone => "dispatch task is gone"

/-- `Error::with`; an error as a cause is kept as its text -/
def withCause (e : Error) (cause : String) : Error := { e with cause := some cause }

def newCanceled : Error := { kind := .canceled }
def newIncomplete : Error := { kind := .incompleteMessage }
def newTooLarge : Error := { kind := .parse .tooLarge }
def newVersionH2 : Error := { kind := .parse .versionH2 }
def newUnexpectedMessage : Error := { kind := .unexpectedMessage }
def newIo (cause : IoError) : Error := { kind := .io, cause := some cause.text }
def newClosed : Error := { kind := .channelClosed }
def newBody (cause : String) : Error := { kind := .body, cause := some cause }
def newBodyWrite (cause : IoError) : Error := { kind := .bodyWrite, cause := some cause.text }
def newBodyWriteAborted : Error := { kind := .user .bodyWriteAborted }
def newUserBody (cause : String) : Error := { kind := .user .body, cause := some cause }
def newShutdown (cause : IoError) : Error := { kind := .shutdown, cause := some cause.text }
def newUserDispatchGone : Error := { kind := .user .dispatchGone }
def ofParse (e : Parse) : Error := { kind := .parse e }

end Error

end Hwire
