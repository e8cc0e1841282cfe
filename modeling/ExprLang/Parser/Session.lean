import ExprLang.Parser.Expression

/-!
# Parsing sessions

A session keeps a token stream together with a grammar to which rules can be
added at any time.  Its requests read single tokens, look rules up, or parse
expressions by the rules registered so far, at any place.  A rule that goes on
with an expression takes the last one that the session has produced.
-/

namespace ExprLang

/-- A stream, the rules to read it by, and the last expression read. -/
structure Session where
  stream : TokenStream
  grammar : Grammar
  last : Expr

namespace Session

/-- A session on a list of tokens, without rules. -/
def ofTokens (tokens : List Token) : Session :=
  ⟨.ofTokens tokens, .empty, .literal .nil .null⟩

/-- What can be asked of a session. -/
inductive Request where
  /-- Registers the rules of the expression language. -/
  | addStandard
  | addPrefix (kind : TokenKind) (rule : PrefixRule)
  | addInfix (kind : TokenKind) (power : BindingPower) (rule : InfixRule)
  | current
  | advance
  | position
  /-- Looks up what is registered for a kind. -/
  | lookUp (kind : TokenKind)
  | expect (kind : TokenKind)
  | expectDetailed (kind : TokenKind) (message : String)
  | expectOr (kind : TokenKind) (d : Diagnostic)
  | expression (power : BindingPower)
  /-- Applies a rule at the current token, whatever its kind. -/
  | applyPrefix (rule : PrefixRule)
  | applyInfix (rule : InfixRule) (power : BindingPower)
deriving DecidableEq, Repr

/-- What a session answers. -/
inductive Reply where
  | done
  | token (t : Token)
  | position (p : Position)
  | rules (startsExpression goesOn : Bool) (power : BindingPower)
  | expression (e : Expr)
  | stop (reason : Stop)
deriving Repr

/-- Reads a token within a session. -/
def readToken (s : Session) (p : ParseM Token) : Reply × Session :=
  match p s.stream with
  | .ok t stream => (.token t, { s with stream })
  | .error reason stream => (.stop reason, { s with stream })

/-- Parses an expression within a session, and keeps it if there is one. -/
def readExpr (s : Session) (p : ParseM Expr) : Reply × Session :=
  match p s.stream with
  | .ok e stream => (.expression e, { s with stream, last := e })
  | .error reason stream => (.stop reason, { s with stream })

/-- The depth of nesting that the tokens of a session allow. -/
def depth (s : Session) : Nat :=
  s.stream.tokens.size

/-- The parser of operands by the rules of a session. -/
def operand (s : Session) : BindingPower → ParseM Expr :=
  parseExpr s.grammar s.depth

/-- Answers a request. -/
def answer (s : Session) : Request → Reply × Session
  | .addStandard => (.done, { s with grammar := s.grammar.addStandard })
  | .addPrefix kind rule => (.done, { s with grammar := s.grammar.addPrefix kind rule })
  | .addInfix kind power rule =>
      (.done, { s with grammar := s.grammar.addInfix kind power rule })
  | .current => s.readToken ParseM.peek
  | .advance => s.readToken ParseM.next
  | .position => (.position s.stream.current.start, s)
  | .lookUp kind =>
      let g := s.grammar
      (.rules (g.prefixRule? kind).isSome (g.infixRule? kind).isSome (g.power kind), s)
  | .expect kind => s.readToken (ParseM.expect kind)
  | .expectDetailed kind message => s.readToken (ParseM.expectDetailed kind message)
  | .expectOr kind d => s.readToken (ParseM.expectOr kind d)
  | .expression power => s.readExpr (s.operand power)
  | .applyPrefix rule => s.readExpr (rule.run s.operand)
  | .applyInfix rule power => s.readExpr (rule.run s.operand s.depth s.last power)

end Session

end ExprLang
