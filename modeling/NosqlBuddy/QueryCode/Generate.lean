import NosqlBuddy.Lib.Json
import NosqlBuddy.Lib.Text

/-!
# Generated driver code

`mongo/query_code.rs`, and `generate_write_code_variants` of `mongo/sql_to_mongo.rs`.

| here | there |
| --- | --- |
| `nodeJsWith` .. `shellWith`, `generateWith` | :121 to :327, :362 |
| `writeCode` | sql_to_mongo.rs:926, the entry of each language |

Code is kept as the pieces that `format!` puts together, `text` is the output. Texts are lists of characters. The lines of a template
have no blanks in front: a `\` at the end of a line in the source takes those of the next one.
-/

namespace QueryCode

inductive Language where
  | nodeJs | python | java | cSharp | ruby | shell
deriving DecidableEq, Repr

structure ConnectionInfo where
  uri : List Char
  profileName : Option (List Char)
  authMechanism : Option (List Char)

/-- A piece of code. What stands for an input comes with it. -/
inductive Piece where
  | code (t : List Char)
  /-- A line: its mark, and what is behind the mark. -/
  | comment (mark t : List Char)
  /-- A string, and what is written for it. -/
  | text (s t : List Char)
  /-- A JSON value, and what is written for it. -/
  | value (v : Json) (t : List Char)
  /-- A JSON value whose text a function of the driver reads, and what is written for the text. -/
  | parsed (v : Json) (t : List Char)
  /-- What begins a list. -/
  | list

def Piece.out : Piece → List Char
  | .code t => t
  | .comment mark t => mark ++ t ++ ['\n']
  | .text _ t => t
  | .value _ t => t
  | .parsed _ t => t
  | .list => ['[']

def text (ps : List Piece) : List Char := ps.flatMap Piece.out

def code (s : String) : Piece := .code s.toList

/-! ## Parts -/

def placeholderUri : List Char := "mongodb://127.0.0.1:27017".toList

def connectionComment (conn : ConnectionInfo) (mark : String) : List Piece :=
  let parts := (conn.profileName.map ("profile: ".toList ++ ·)).toList ++ (conn.authMechanism.map ("auth: ".toList ++ ·)).toList
  if parts = [] then [] else [.comment (mark.toList ++ [' ']) (" · ".toList.intercalate parts)]

def uriFor (conn : ConnectionInfo) : List Char := if Text.trim conn.uri = [] then placeholderUri else conn.uri

def indent (s : String) (n : Nat) : List Char := ['\n'].intercalate ((Text.lines s.toList).map (List.replicate n ' ' ++ ·))

/-- `replace` of a character. -/
def replaceChar (c : Char) (t : String) (s : List Char) : List Char := s.flatMap fun d => if d = c then t.toList else [d]

/-- `json_escape`, `double_quote` and `str_in` of each language. -/
def jsonEscape (s : List Char) : List Char := '"' :: replaceChar '"' "\\\"" (replaceChar '\\' "\\\\" s) ++ ['"']

def strIn (s : List Char) : Piece := .text s (jsonEscape s)

/-- `json_literal` of each stage between brackets, as one value. -/
def pipelineLit (pipeline : List Json) : Piece := .value (.array pipeline) ('[' :: ", ".toList.intercalate (pipeline.map Json.compact) ++ [']'])

/-- Each stage as the argument of a function, between brackets. -/
def parsedStages (before after : String) (pipeline : List Json) : List Piece :=
  .list :: [code ", "].intercalate (pipeline.map fun v => [code before, .parsed v v.compact, code after]) ++ [code "]"]

/-! ## Reading -/

def nodeJsWith (database collection : List Char) (pipeline : List Json) (conn : ConnectionInfo) : List Piece :=
  connectionComment conn "//" ++
    [code ("import \x7b MongoClient \x7d from \"mongodb\";\n\n" ++ "const client = new MongoClient("),
      -- the escaped text has its quotation marks already
      .text (uriFor conn) ('"' :: jsonEscape (uriFor conn) ++ ['"']),
      code (");\n" ++ "await client.connect();\n" ++ "const cursor = client\n" ++ ".db("), strIn database, code (")\n" ++ ".collection("),
      strIn collection, code (")\n" ++ ".aggregate("), pipelineLit pipeline,
      code (");\n" ++ "const docs = await cursor.toArray();\n" ++ "console.log(docs);\n")]

def pythonWith (database collection : List Char) (pipeline : List Json) (conn : ConnectionInfo) : List Piece :=
  connectionComment conn "#" ++
    [code ("from pymongo import MongoClient\n" ++ "import json\n\n" ++ "client = MongoClient("), strIn (uriFor conn),
      code (")\n" ++ "cursor = client["), strIn database, code "][", strIn collection, code "].aggregate(", pipelineLit pipeline,
      code (")\n" ++ "for doc in cursor:\n"), .code (indent "print(doc)" 4), code "print(doc)\n"]

def javaWith (database collection : List Char) (pipeline : List Json) (conn : ConnectionInfo) : List Piece :=
  let main := "public static void main(String[] args) \x7b"
  connectionComment conn "//" ++
    [code ("import com.mongodb.client.*;\n" ++ "import org.bson.Document;\n" ++ "import java.util.Arrays;\n\n" ++
        "public class Query \x7b\n"), .code (indent main 4), code (main ++ "\n"),
      .code (indent main 8), code "MongoClient client = MongoClients.create(", strIn (uriFor conn), code ");\n",
      .code (indent main 8), code "MongoCollection<Document> coll = client\n",
      .code (indent main 12), code ".getDatabase(", strIn database, code ")\n",
      .code (indent main 12), code ".getCollection(", strIn collection, code ");\n",
      .code (indent main 8), code "AggregateIterable<Document> cursor = coll.aggregate("] ++
    parsedStages "new Document(Document.parse(" "))" pipeline ++
    [code ");\n", .code (indent main 8), code "cursor.forEach((Block<? super Document>) System.out::println);\n",
      .code (indent main 4), code ("\x7d\n" ++ "\x7d\n")]

def csharpWith (database collection : List Char) (pipeline : List Json) (conn : ConnectionInfo) : List Piece :=
  connectionComment conn "//" ++
    [code ("using MongoDB.Bson;\n" ++ "using MongoDB.Driver;\n\n" ++ "var client = new MongoClient("), strIn (uriFor conn),
      code (");\n" ++ "var cursor = client\n" ++ ".GetDatabase("), strIn database, code (")\n" ++ ".GetCollection<BsonDocument>("),
      strIn collection, code (")\n" ++ ".Aggregate<BsonDocument>(")] ++
    parsedStages "BsonDocument.Parse(" ")" pipeline ++
    [code (");\n" ++ "foreach (var doc in cursor.ToList()) \x7b\n"), .code (indent "Console.WriteLine(doc);" 4),
      code ("Console.WriteLine(doc);\n" ++ "\x7d\n")]

/-- `ruby_uri_array`: the text of the URI as it is. -/
def rubyUriArray (uri : List Char) : List Piece := [code "[", .text uri ('\'' :: uri ++ ['\'']), code "]"]

def rubyWith (database collection : List Char) (pipeline : List Json) (conn : ConnectionInfo) : List Piece :=
  connectionComment conn "#" ++
    [code ("require 'mongo'\n\n" ++ "Mongo::Logger.logger.level = Logger::WARN\n" ++ "client = Mongo::Client.new(")] ++
    rubyUriArray (uriFor conn) ++
    [code (")\n" ++ "cursor = client["), strIn database, code "][", strIn collection, code "].aggregate(", pipelineLit pipeline,
      code (")\n" ++ "cursor.each do |doc|\n"), .code (indent "puts doc" 4), code ("puts doc\n" ++ "end\n")]

def shellWith (database collection : List Char) (pipeline : List Json) (conn : ConnectionInfo) : List Piece :=
  connectionComment conn "//" ++
    [code "use ", .text database database, code (";\n" ++ "db."), .text collection collection, code ".aggregate(", pipelineLit pipeline,
      code ").forEach(printjson);\n"]

def generateWith : Language → List Char → List Char → List Json → ConnectionInfo → List Piece
  | .nodeJs => nodeJsWith
  | .python => pythonWith
  | .java => javaWith
  | .cSharp => csharpWith
  | .ruby => rubyWith
  | .shell => shellWith

/-! ## Writing -/

inductive Op where
  | update | delete
deriving DecidableEq, Repr

def Op.text : Op → String
  | .update => "update"
  | .delete => "delete"

/-- What a write is given. -/
structure Write where
  op : Op
  filter : Json
  update : Json
  upsert : Bool

/-- A string between single quotation marks as it is, behind a text that is fixed. -/
def raw (before : String) (s : List Char) : Piece := .text (before.toList ++ s) ('\'' :: (before.toList ++ s) ++ ['\''])

def prettyLit (v : Json) : Piece := .value v (Json.pretty 0 v)

/-- A language without code of its own: comments. -/
def writeComment (lang : String) (database collection : List Char) (w : Write) : List Piece :=
  [.comment "// ".toList (lang.toList ++ " driver code for ".toList ++ w.op.text.toList ++ " on ".toList ++ database ++ '.' :: collection),
    .comment "// ".toList ("Filter: ".toList ++ Json.pretty 0 w.filter), .comment "// ".toList ("Update: ".toList ++ Json.pretty 0 w.update)]

def writeCode (lang : Language) (database collection : List Char) (w : Write) : List Piece :=
  match lang with
  | .nodeJs =>
    [code ("const \x7b MongoClient \x7d = require('mongodb');\n" ++ "async function run() \x7b\n" ++ "const client = new MongoClient("),
      raw "mongodb://localhost:27017/" database, code (");\n" ++ "await client.connect();\n" ++ "const db = client.db("),
      raw "" database, code (");\n" ++ "const coll = db.collection("), raw "" collection,
      code (");\n" ++ "const result = await coll." ++ w.op.text ++ "Many(\n"), prettyLit w.filter, code ",\n", prettyLit w.update,
      code ("\n\x7b " ++ (if w.upsert then ", upsert: true" else "") ++ " \x7d\n" ++ ");\n" ++ "console.log(result);\n" ++
        "await client.close();\n" ++ "\x7d\n" ++ "run().catch(console.error);\n")]
  | .python =>
    [code ("from pymongo import MongoClient\n" ++ "client = MongoClient("), raw "mongodb://localhost:27017/" database,
      code (")\n" ++ "db = client["), raw "" database, code ("]\n" ++ "coll = db["), raw "" collection,
      code ("]\n" ++ "result = coll." ++ w.op.text ++ "_many(\n"), prettyLit w.filter, code ",\n", prettyLit w.update,
      code ("\n)\n" ++ "print(result)\n")]
  | .shell =>
    [code "use ", .text database database, code ("\n" ++ "db."), .text collection collection, code ("." ++ w.op.text ++ "Many(\n"),
      prettyLit w.filter, code ",\n", prettyLit w.update, code "\n)\n"]
  | .java => writeComment "java" database collection w
  | .cSharp => writeComment "c-sharp" database collection w
  | .ruby => writeComment "ruby" database collection w

end QueryCode
