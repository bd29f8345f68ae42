import CodeAtlas.Text.Split

/-!
# Templates

The files with which a project starts out: its settings, its agents and their tasks, and what is
ignored.
-/

namespace CodeAtlas.Template

def lines (texts : List String) : String :=
  String.join (texts.map (· ++ "\n"))

def settings : String :=
  lines [
    "# hammy.yaml — place this in your project root",
    "",
    "project:",
    "  name: \"my-project\"   # Used to isolate Qdrant collections per project — set this!",
    "  root: \".\"            # Project root, relative to this config file",
    "",
    "parsing:",
    "  languages:           # Languages to index (remove any you don't use)",
    "    - php",
    "    - javascript",
    "    - typescript",
    "    - python",
    "    - go",
    "    - csharp",
    "  max_file_size_kb: 500  # Skip files larger than this",
    "",
    "qdrant:",
    "  host: \"localhost\"",
    "  port: 6333",
    "  collection_prefix: \"\"          # Leave blank to auto-derive from project.name (recommended)",
    "                                 # Set explicitly to override, e.g. \"prod\" or \"shared-index\"",
    "  embedding_model: \"all-MiniLM-L6-v2\"  # SentenceTransformer model for semantic search",
    "",
    "vcs:",
    "  max_commits: 5000       # How far back to scan commit history",
    "  churn_window_days: 90   # Lookback window for hotspot churn scoring",
    "",
    "enrichment:",
    "  enabled: false          # Set true to auto-generate LLM summaries during indexing",
    "  provider: \"openrouter\"  # LiteLLM provider string (anthropic, openai, etc.)",
    "  model: \"gpt-5.4-nano\"   # Model to use for summaries",
    "  batch_size: 10          # Symbols enriched per API call",
    "  skip_if_summary: true   # Don't re-enrich symbols that already have summaries",
    "  max_symbols: 0          # Cap on symbols to enrich per run (0 = no limit)",
    "",
    "ignore:",
    "  use_gitignore: true     # Respect .gitignore",
    "  use_hgignore: true      # Respect .hgignore",
    "  use_hammyignore: true   # Respect .hammyignore",
    "  extra_patterns: []      # Additional glob patterns to exclude",
    "  # extra_patterns:",
    "  #   - \"vendor/**\"",
    "  #   - \"*.generated.php\"",
    "  #   - \"*.Designer.cs\""]

def agents : String :=
  lines [
    "# CrewAI agent definitions",
    "# Set the `llm` field to your preferred provider/model.",
    "# Examples:",
    "#   anthropic/claude-sonnet-4-20250514",
    "#   openai/gpt-4o",
    "#   ollama/llama3",
    "",
    "dispatcher:",
    "  role: \"Codebase Intelligence Dispatcher\"",
    "  goal: >",
    "    Analyze incoming queries, decompose them into exploration and research tasks,",
    "    and synthesize results into a coherent Context Pack.",
    "  backstory: >",
    "    You are an expert at understanding what developers need to know about a codebase.",
    "    You break complex questions into specific, actionable research tasks.",
    "  llm: anthropic/claude-sonnet-4-20250514  # REQUIRED: set to your provider/model",
    "  max_iter: 20",
    "  allow_delegation: true",
    "  verbose: true",
    "",
    "historian:",
    "  role: \"Codebase Historian\"",
    "  goal: >",
    "    Provide temporal context: who changed what, when, why, and how often.",
    "  backstory: >",
    "    You are an expert at reading version control history and extracting meaningful",
    "    patterns from commit logs, blame data, and change frequency.",
    "  llm: anthropic/claude-sonnet-4-20250514  # REQUIRED: set to your provider/model",
    "  max_iter: 20",
    "  allow_delegation: false",
    "  verbose: true",
    "",
    "explorer:",
    "  role: \"Codebase Explorer\"",
    "  goal: >",
    "    Map structural relationships: classes, functions, dependencies, and cross-language bridges.",
    "  backstory: >",
    "    You are an expert at reading ASTs, understanding code structure, and finding",
    "    connections between components across languages.",
    "  llm: anthropic/claude-sonnet-4-20250514  # REQUIRED: set to your provider/model",
    "  max_iter: 15",
    "  allow_delegation: false",
    "  verbose: true"]

def tasks : String :=
  lines [
    "# CrewAI task templates",
    "# These can be customized per query type",
    "",
    "explore:",
    "  description: >",
    "    Analyze the codebase structure to find relevant code entities,",
    "    dependencies, and cross-language bridges related to the query.",
    "  expected_output: >",
    "    A detailed report of relevant code entities, their locations,",
    "    dependencies, and any cross-language connections.",
    "",
    "research_history:",
    "  description: >",
    "    Research the version control history to find relevant commits,",
    "    blame information, and change frequency patterns.",
    "  expected_output: >",
    "    A report on relevant commit history, code ownership,",
    "    change frequency, and notable patterns.",
    "",
    "synthesize:",
    "  description: >",
    "    Combine structural and historical analysis into a comprehensive",
    "    report with findings, warnings, and recommendations.",
    "  expected_output: >",
    "    A comprehensive analysis with clear findings, warnings about",
    "    high-churn areas or legacy code, and actionable recommendations."]

def leastSettings : String :=
  lines [
    "project:",
    "  name: \"my-project\"  # Used to isolate Qdrant collections — set this!",
    "  root: \".\""]

def ignored : String :=
  lines [
    "# Hammy custom ignore patterns",
    "# Uses .gitignore syntax",
    ".hammy/",
    "*.min.js",
    "*.min.css",
    "*.map",
    "dist/",
    "build/"]

end CodeAtlas.Template
