import Synopsis.Document.Json
import Synopsis.Document.Markdown
import Synopsis.Document.Xml

/-! Writing a document in a given format. -/
namespace Synopsis

def Document.render (d : Document) : OutputFormat → String
  | .xml => Xml.render d
  | .markdown => Markdown.render d
  | .json => JsonValue.render d

end Synopsis
